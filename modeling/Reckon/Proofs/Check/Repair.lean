import Reckon.Proofs.Check.Parens

/-!
# Repairing the parentheses of a text

What the check of parentheses keeps is balanced, and its pairs are the groups (`Matched`).  Leaving
out one parenthesis mends one at most (`Pairing.Near.leave`), so no balanced rest can be had by
leaving out fewer than the check does (`minimal_repair`).
-/

namespace Reckon.Paren

open Text

variable {ps qs kept free : List Paren} {pairs later : List (Paren × Paren)}
variable {opener closer : Paren} {s k : Pairing} {n : Nat}

/-! ## Balanced sequences -/

/-- Groups stand inside and behind one another; the pairs are listed as their groups are closed. -/
inductive Matched : List Paren → List (Paren × Paren) → Prop
  | nil : Matched [] []
  | group {opener closer : Paren} {inner rest : List Paren} {inside later : List (Paren × Paren)}
      (hopener : opener.side = .opening) (hcloser : closer.side = .closing)
      (hinner : Matched inner inside) (hrest : Matched rest later) :
      Matched (opener :: (inner ++ closer :: rest)) (inside ++ (opener, closer) :: later)

namespace Matched

theorem append (hp : Matched ps pairs) (hq : Matched qs later) :
    Matched (ps ++ qs) (pairs ++ later) := by
  induction hp with
  | nil => exact hq
  | group hopener hcloser hinner _ _ ih =>
    simpa using Matched.group hopener hcloser hinner ih

theorem wrapped (h : Matched ps pairs) (hopener : opener.side = .opening)
    (hcloser : closer.side = .closing) :
    Matched (opener :: (ps ++ [closer])) (pairs ++ [(opener, closer)]) :=
  .group hopener hcloser h .nil

/-- The pairs hold the parentheses, each once. -/
theorem perm (h : Matched ps pairs) : (pairs.flatMap fun p => [p.1, p.2]).Perm ps := by
  induction h with
  | nil => exact .nil
  | @group opener closer inner rest inside later _ _ _ _ ihinner ihrest =>
    rw [List.flatMap_append, List.flatMap_cons]
    refine (ihinner.append (ihrest.append_left [opener, closer])).trans ?_
    refine List.perm_middle.trans (.cons opener ?_)
    exact .refl _

/-- In a pair, what comes first in the sequence opens and what comes later closes. -/
theorem forall_pairs {R : Paren → Paren → Prop} (h : Matched ps pairs) (hR : ps.Pairwise R) :
    ∀ p ∈ pairs, p.1.side = .opening ∧ p.2.side = .closing ∧ R p.1 p.2 := by
  induction h with
  | nil => exact fun p hp => nomatch hp
  | @group opener closer inner rest inside later hopener hcloser _ _ ihinner ihrest =>
    obtain ⟨hfirst, hR⟩ := List.pairwise_cons.mp hR
    obtain ⟨hinner, hrest, -⟩ := List.pairwise_append.mp hR
    intro p hp
    rcases List.mem_append.mp hp with hp | hp
    · exact ihinner hinner p hp
    · rcases List.mem_cons.mp hp with rfl | hp
      · exact ⟨hopener, hcloser, hfirst closer (by simp)⟩
      · exact ihrest hrest.tail p hp

/-- Pairing goes over a balanced sequence and leaves nothing of it free or stray. -/
theorem foldl_add (h : Matched ps pairs) (s : Pairing) :
    ps.foldl Pairing.add s = { s with paired := pairs.reverse ++ s.paired } := by
  induction h generalizing s with
  | nil => rfl
  | @group opener closer inner rest inside later hopener hcloser _ _ ihinner ihrest =>
    have hopen : s.add opener = { s with free := opener :: s.free } := by
      rw [Pairing.add, hopener]
    have hclose : ∀ paired, Pairing.add ⟨opener :: s.free, paired, s.stray⟩ closer =
        ⟨s.free, (opener, closer) :: paired, s.stray⟩ := by
      intro paired
      rw [Pairing.add, hcloser]
    rw [List.foldl_cons, hopen, List.foldl_append, ihinner, List.foldl_cons, hclose, ihrest]
    simp

/-- There is only one way to pair the parentheses. -/
theorem unique (h : Matched ps pairs) (h' : Matched ps later) : later = pairs := by
  have hboth := (h.foldl_add ⟨[], [], []⟩).symm.trans (h'.foldl_add ⟨[], [], []⟩)
  simpa using (congrArg Pairing.paired hboth).symm

end Matched

/-! ## Sequences that are not finished -/

/-- Balanced stretches with free parentheses before them, of which the latest is listed first. -/
inductive Unfinished : List Paren → List Paren → List (Paren × Paren) → Prop
  | balanced {ps : List Paren} {pairs : List (Paren × Paren)} (h : Matched ps pairs) :
      Unfinished ps [] pairs
  | opened {ps free qs : List Paren} {pairs later : List (Paren × Paren)} {opener : Paren}
      (h : Unfinished ps free pairs) (hopener : opener.side = .opening) (hlater : Matched qs later) :
      Unfinished (ps ++ opener :: qs) (opener :: free) (pairs ++ later)

namespace Unfinished

theorem append (h : Unfinished ps free pairs) (hq : Matched qs later) :
    Unfinished (ps ++ qs) free (pairs ++ later) := by
  cases h with
  | balanced h => exact .balanced (h.append hq)
  | opened h hopener hlater =>
    simpa using Unfinished.opened h hopener (hlater.append hq)

/-- A closing parenthesis makes a group of the last stretch. -/
theorem close (h : Unfinished ps (opener :: free) pairs) (hcloser : closer.side = .closing) :
    Unfinished (ps ++ [closer]) free (pairs ++ [(opener, closer)]) := by
  cases h with
  | opened h hopener hlater =>
    simpa using h.append (hlater.wrapped hopener hcloser)

/-- Without the free parentheses the rest is balanced. -/
theorem exists_kept (h : Unfinished ps free pairs) :
    ∃ kept, Matched kept pairs ∧ kept.Sublist ps ∧ (kept ++ free).Perm ps := by
  induction h with
  | @balanced ps pairs h => exact ⟨ps, h, .refl ps, by simp⟩
  | @opened ps free qs pairs later opener _ _ hlater ih =>
    obtain ⟨kept, hkept, hsub, hperm⟩ := ih
    have hswap : (kept ++ qs ++ free).Perm (kept ++ free ++ qs) := by
      simpa using List.perm_append_comm.append_left kept
    refine ⟨kept ++ qs, hkept.append hlater, hsub.append (List.sublist_cons_self opener qs), ?_⟩
    refine List.perm_middle.trans (.trans (.cons opener ?_) List.perm_middle.symm)
    exact hswap.trans (hperm.append_right qs)

end Unfinished

namespace Pairing

/-! ## What pairing keeps -/

/-- What `s` says of the parentheses read so far: without the stray ones they are unfinished, with
those of `s` free and paired, and no free one stands before a stray one. -/
structure Tracks (ps : List Paren) (s : Pairing) : Prop where
  unfinished : ∃ qs, Unfinished qs s.free s.paired.reverse ∧ qs.Sublist ps ∧ (qs ++ s.stray).Perm ps
  ordered : (s.stray.reverse ++ s.free.reverse).Sublist ps

theorem Tracks.add (h : Tracks ps s) (p : Paren) : Tracks (ps ++ [p]) (s.add p) := by
  obtain ⟨⟨qs, hqs, hsub, hperm⟩, hordered⟩ := h
  have hlast : (qs ++ [p] ++ s.stray).Perm (ps ++ [p]) := by
    have hswap : (qs ++ [p] ++ s.stray).Perm (qs ++ s.stray ++ [p]) := by
      rw [List.append_assoc, List.append_assoc]
      exact List.perm_append_comm.append_left qs
    exact hswap.trans (hperm.append_right [p])
  unfold Pairing.add
  cases hp : p.side with
  | opening =>
    refine ⟨⟨qs ++ [p], ?_, hsub.append_right [p], hlast⟩, ?_⟩
    · simpa using hqs.opened hp .nil
    · simpa using hordered.append_right [p]
  | closing =>
    obtain ⟨free, paired, stray⟩ := s
    cases free with
    | nil =>
      refine ⟨⟨qs, hqs, hsub.trans (List.sublist_append_left ps [p]), ?_⟩, ?_⟩
      · exact List.perm_middle.trans ((hperm.cons p).trans (List.perm_append_singleton p ps).symm)
      · simpa using hordered.append_right [p]
    | cons opener free =>
      refine ⟨⟨qs ++ [p], ?_, hsub.append_right [p], hlast⟩, ?_⟩
      · simpa using hqs.close hp
      · rw [List.reverse_cons, ← List.append_assoc] at hordered
        exact ((List.sublist_append_left _ [opener]).trans hordered).trans
          (List.sublist_append_left ps [p])

theorem tracks_pair (ps : List Paren) : Tracks ps (pair ps) := by
  induction ps using List.reverseRecOn with
  | nil => exact ⟨⟨[], .balanced .nil, .refl [], .refl []⟩, .refl []⟩
  | append_singleton ps p ih =>
    have hlast : pair (ps ++ [p]) = (pair ps).add p := by
      unfold pair
      rw [List.foldl_append, List.foldl_cons, List.foldl_nil]
    rw [hlast]
    exact ih.add p

/-! ## What leaving out mends -/

/-- At most `n` more parentheses are free or stray in `s` than in `k`, and at most `n` more are stray
once as many closing ones follow as are free in `k`. -/
structure Near (n : Nat) (s k : Pairing) : Prop where
  unpaired : s.stray.length + s.free.length ≤ k.stray.length + k.free.length + n
  closed : s.stray.length + k.free.length ≤ k.stray.length + s.free.length + n

theorem length_add (s : Pairing) (p : Paren) :
    (p.side = .opening ∧ (s.add p).stray.length = s.stray.length ∧
      (s.add p).free.length = s.free.length + 1) ∨
    (p.side = .closing ∧ s.free.length = 0 ∧ (s.add p).stray.length = s.stray.length + 1 ∧
      (s.add p).free.length = 0) ∨
    (p.side = .closing ∧ (s.add p).stray.length = s.stray.length ∧
      s.free.length = (s.add p).free.length + 1) := by
  unfold Pairing.add
  obtain ⟨free, paired, stray⟩ := s
  cases hp : p.side with
  | opening => simp
  | closing => cases free <;> simp

theorem Near.keep (h : Near n s k) (p : Paren) : Near n (s.add p) (k.add p) := by
  obtain ⟨hunpaired, hclosed⟩ := h
  have hs := length_add s p
  have hk := length_add k p
  by_cases hp : p.side = .opening
  · simp only [hp, reduceCtorEq, true_and, false_and, or_false] at hs hk
    constructor <;> omega
  · simp only [hp, false_and, false_or] at hs hk
    constructor <;> omega

/-- Leaving out one parenthesis mends one at most. -/
theorem Near.leave (h : Near n s k) (p : Paren) : Near (n + 1) (s.add p) k := by
  obtain ⟨hunpaired, hclosed⟩ := h
  have hs := length_add s p
  constructor <;> omega

theorem Near.run (h : Near n s k) (hsub : qs.Sublist ps) :
    ∃ m, m + qs.length = n + ps.length ∧
      Near m (ps.foldl Pairing.add s) (qs.foldl Pairing.add k) := by
  induction hsub generalizing n s k with
  | slnil => exact ⟨n, rfl, h⟩
  | cons p _ ih =>
    obtain ⟨m, hm, hnear⟩ := ih (h.leave p)
    refine ⟨m, ?_, hnear⟩
    rw [List.length_cons]
    omega
  | cons_cons p _ ih =>
    obtain ⟨m, hm, hnear⟩ := ih (h.keep p)
    refine ⟨m, ?_, hnear⟩
    rw [List.length_cons, List.length_cons]
    omega

/-- A balanced rest lacks as many parentheses as the pairing leaves free or stray. -/
theorem unpaired_le (hsub : kept.Sublist ps) (h : Matched kept pairs) :
    (pair ps).stray.length + (pair ps).free.length + kept.length ≤ ps.length := by
  have hstart : Near 0 ⟨[], [], []⟩ ⟨[], [], []⟩ := ⟨Nat.le_refl _, Nat.le_refl _⟩
  obtain ⟨m, hm, hnear⟩ := hstart.run hsub
  rw [h.foldl_add] at hnear
  have hunpaired : (pair ps).stray.length + (pair ps).free.length ≤ 0 + 0 + m := hnear.unpaired
  omega

end Pairing

/-! ## The repair -/

variable {d : Dialect}

theorem valid_inspect (d : Dialect) (source : String) : (inspect d source).valid =
    (pair (inText d source.toList)).paired.reverse.flatMap fun p => [p.1, p.2] := rfl

/-- Opening parentheses that are free stand behind the stray closing ones. -/
theorem pairwise_invalid (d : Dialect) (source : String) :
    (inspect d source).invalid.Pairwise fun p q =>
      p.position < q.position ∧ (p.side = .opening → q.side = .opening) := by
  have hordered := (Pairing.tracks_pair (inText d source.toList)).ordered
  have hsided := Pairing.sided_pair (inText d source.toList)
  rw [invalid_inspect]
  refine ((pairwise_inText d source.toList).sublist hordered).and ?_
  refine List.pairwise_append.mpr ⟨?_, ?_, ?_⟩
  · refine List.pairwise_of_forall_mem_list ?_
    intro p hp q _ hopening
    rw [hsided.stray p (List.mem_reverse.mp hp)] at hopening
    cases hopening
  · refine List.pairwise_of_forall_mem_list ?_
    intro _ _ q hq _
    exact hsided.free q (List.mem_reverse.mp hq)
  · intro _ _ q hq _
    exact hsided.free q (List.mem_reverse.mp hq)

/-- Without the invalid parentheses the others are balanced. -/
theorem matched_valid (d : Dialect) (source : String) :
    Matched ((inText d source.toList).filter (· ∉ (inspect d source).invalid))
        (pair (inText d source.toList)).paired.reverse ∧
      ((inspect d source).valid ++ (inspect d source).invalid).Perm (inText d source.toList) := by
  obtain ⟨qs, hunfinished, hsub, hperm⟩ := (Pairing.tracks_pair (inText d source.toList)).unfinished
  obtain ⟨kept, hmatched, hkept, hfree⟩ := hunfinished.exists_kept
  have hinvalid : (kept ++ (inspect d source).invalid).Perm (inText d source.toList) := by
    rw [invalid_inspect]
    have hforward : ((pair (inText d source.toList)).stray.reverse ++
        (pair (inText d source.toList)).free.reverse).Perm
        ((pair (inText d source.toList)).free ++ (pair (inText d source.toList)).stray) :=
      ((List.reverse_perm _).append (List.reverse_perm _)).trans List.perm_append_comm
    refine (hforward.append_left kept).trans ?_
    rw [← List.append_assoc]
    exact (hfree.append_right _).trans hperm
  have hpairwise := pairwise_inText d source.toList
  have hnodup : (kept ++ (inspect d source).invalid).Nodup := by
    refine hinvalid.nodup_iff.mpr (hpairwise.imp ?_)
    rintro p q hlt rfl
    omega
  have hdeleted : kept = (inText d source.toList).filter (· ∉ (inspect d source).invalid) := by
    refine eq_of_mem_iff (hpairwise.sublist (hkept.trans hsub))
      (hpairwise.sublist (List.filter_sublist)) fun p => ?_
    rw [List.mem_filter, ← hinvalid.mem_iff, List.mem_append, decide_eq_true_eq]
    have hdisjoint := (List.nodup_append.mp hnodup).2.2 p
    constructor
    · intro hp
      exact ⟨.inl hp, fun hinvalid => hdisjoint hp p hinvalid rfl⟩
    · rintro ⟨hp, hnot⟩
      exact hp.resolve_right hnot
  refine ⟨hdeleted ▸ hmatched, ?_⟩
  rw [valid_inspect]
  exact (hmatched.perm.append_right _).trans hinvalid

/-- **The check of parentheses repairs as little as can be.**  It lists every parenthesis of the text
once.  The valid ones come in pairs, which are the groups of the text without the invalid ones; of
these all closing ones stand before all opening ones.  To leave out fewer does not leave groups. -/
theorem minimal_repair (hd : d.Distinct) (source : String) :
    (∀ p, p ∈ inText d source.toList ↔
      p.symbol = symbolOf d p.side ∧ StandsAt [p.symbol] 0 source.toList p.position) ∧
    ((inText d source.toList).Pairwise fun p q => p.position < q.position) ∧
    ((inspect d source).valid ++ (inspect d source).invalid).Perm (inText d source.toList) ∧
    (∃ pairs, (inspect d source).valid = pairs.flatMap (fun p => [p.1, p.2]) ∧
      (∀ p ∈ pairs, p.1.side = .opening ∧ p.2.side = .closing ∧ p.1.position < p.2.position) ∧
      ∀ pairs', Matched ((inText d source.toList).filter (· ∉ (inspect d source).invalid)) pairs' ↔
        pairs' = pairs) ∧
    ((inspect d source).invalid.Pairwise fun p q =>
      p.position < q.position ∧ (p.side = .opening → q.side = .opening)) ∧
    ∀ kept pairs, kept.Sublist (inText d source.toList) → Matched kept pairs →
      (inspect d source).invalid.length + kept.length ≤ (inText d source.toList).length := by
  obtain ⟨hmatched, hperm⟩ := matched_valid d source
  have hpairwise := pairwise_inText d source.toList
  refine ⟨fun p => mem_inText hd, hpairwise, hperm,
    ⟨_, valid_inspect d source, hmatched.forall_pairs (hpairwise.sublist List.filter_sublist), ?_⟩,
    pairwise_invalid d source, ?_⟩
  · intro pairs'
    constructor
    · exact hmatched.unique
    · rintro rfl
      exact hmatched
  · intro kept pairs hsub hkept
    have hle := Pairing.unpaired_le hsub hkept
    rw [invalid_inspect, List.length_append, List.length_reverse, List.length_reverse]
    exact hle

/-- The four parentheses of `)(1))((` that the check leaves out cannot be mended by fewer. -/
theorem minimal_repair_of_strays :
    Dialect.build .standard = .ok .standard ∧
    (inspect .standard ")(1))((").valid = [⟨.opening, '(', 1⟩, ⟨.closing, ')', 3⟩] ∧
    (inspect .standard ")(1))((").invalid =
      [⟨.closing, ')', 0⟩, ⟨.closing, ')', 4⟩, ⟨.opening, '(', 5⟩, ⟨.opening, '(', 6⟩] ∧
    ∀ kept pairs, kept.Sublist (inText .standard ")(1))((".toList) → Matched kept pairs →
      kept.length ≤ 2 := by
  have hinvalid : (inspect .standard ")(1))((").invalid =
      [⟨.closing, ')', 0⟩, ⟨.closing, ')', 4⟩, ⟨.opening, '(', 5⟩, ⟨.opening, '(', 6⟩] := by decide
  refine ⟨build_standard, by decide, hinvalid, ?_⟩
  intro kept pairs hsub hkept
  obtain ⟨-, -, -, -, -, hleast⟩ :=
    minimal_repair (Dialect.distinct_of_build build_standard) ")(1))(("
  have hle := hleast kept pairs hsub hkept
  have hlength : (inText .standard ")(1))((".toList).length = 6 := by decide
  rw [hinvalid, hlength] at hle
  simp only [List.length_cons, List.length_nil] at hle
  omega

end Reckon.Paren
