import Reckon.Proofs.Polish.Spelling

/-!
# Arguments

A call encodes its arguments as a chain of separators that leans to the right.  The links of the
chain are what the tokens between the separators spell (`Spells.forall₂_segments`), so the arguments
of a call are those that are written between its parentheses (`arguments_of_call`).
-/

namespace Reckon

variable {d : Dialect} {ts us : List Token} {t f j : Token} {u : Tree} {depth : Nat}

/-! ## Segments -/

/-- The parts of some tokens between the separators that are in no group, where so many groups are
open from the start. -/
def segmentsFrom : Nat → List Token → List (List Token)
  | _, [] => [[]]
  | depth, t :: ts =>
    if t.kind.opensGroup then (segmentsFrom (depth + 1) ts).modifyHead (t :: ·)
    else if t.kind = .closing then (segmentsFrom (depth - 1) ts).modifyHead (t :: ·)
    else if t.kind = .separator ∧ depth = 0 then [] :: segmentsFrom 0 ts
    else (segmentsFrom depth ts).modifyHead (t :: ·)

/-- The parts of some tokens between the separators that are in no group. -/
def segments (ts : List Token) : List (List Token) := segmentsFrom 0 ts

theorem segmentsFrom_of_opens (h : t.kind.opensGroup) :
    segmentsFrom depth (t :: ts) = (segmentsFrom (depth + 1) ts).modifyHead (t :: ·) :=
  if_pos h

theorem segmentsFrom_of_closing (h : t.kind = .closing) :
    segmentsFrom (depth + 1) (t :: ts) = (segmentsFrom depth ts).modifyHead (t :: ·) := by
  simp [segmentsFrom, h, TokenKind.opensGroup]

theorem segmentsFrom_of_separator (h : t.kind = .separator) :
    segmentsFrom 0 (t :: ts) = [] :: segmentsFrom 0 ts := by
  simp [segmentsFrom, h, TokenKind.opensGroup]

theorem segmentsFrom_of_other (ho : ¬ t.kind.opensGroup) (hc : t.kind ≠ .closing)
    (hs : t.kind = .separator → 0 < depth) :
    segmentsFrom depth (t :: ts) = (segmentsFrom depth ts).modifyHead (t :: ·) := by
  have hinner : ¬ (t.kind = .separator ∧ depth = 0) := fun h => (hs h.1).ne' h.2
  simp only [segmentsFrom, ho, hc, hinner, if_false, Bool.false_eq_true]

/-- Some tokens that no segment ends in, with so many groups open around them. -/
def Unsplit (depth : Nat) (ts : List Token) : Prop :=
  ∀ us, segmentsFrom depth (ts ++ us) = (segmentsFrom depth us).modifyHead (ts ++ ·)

theorem Unsplit.append (hts : Unsplit depth ts) (hus : Unsplit depth us) :
    Unsplit depth (ts ++ us) := by
  intro vs
  rw [List.append_assoc, hts, hus, List.modifyHead_modifyHead]
  congr 1
  funext vs
  exact (List.append_assoc ts us vs).symm

theorem unsplit_nil : Unsplit depth [] := fun us => by
  cases h : segmentsFrom depth us <;> simp [h]

theorem unsplit_singleton (ho : ¬ t.kind.opensGroup) (hc : t.kind ≠ .closing)
    (hs : t.kind = .separator → 0 < depth) : Unsplit depth [t] :=
  fun _ => segmentsFrom_of_other ho hc hs

/-- In brackets there is one more group open. -/
theorem Unsplit.group {o c : Token} (h : Unsplit (depth + 1) ts) (ho : o.kind.opensGroup)
    (hc : c.kind = .closing) : Unsplit depth (o :: (ts ++ [c])) := by
  intro us
  rw [List.cons_append, List.append_assoc, List.singleton_append, segmentsFrom_of_opens ho, h,
    segmentsFrom_of_closing hc, List.modifyHead_modifyHead, List.modifyHead_modifyHead]
  congr 1
  funext vs
  simp

/-- A segment ends only at a separator of a list. -/
theorem Spells.unsplit (h : Spells ts u) (hu : u.kind = .separator → 0 < depth) :
    Unsplit depth ts := by
  induction h generalizing depth with
  | gap => exact unsplit_nil
  | operand hk =>
    rename_i t
    refine unsplit_singleton ?_ ?_ hu <;>
      cases hk' : t.kind <;> simp_all [TokenKind.isOperand, TokenKind.opensGroup]
  | group ho h hu' hc ih =>
    exact (ih fun hs => absurd hs hu').group (by rw [ho]; rfl) hc
  | @operator j _ _ _ _ hj hl hleft hr hright ihl ihr =>
    have hone : Unsplit depth [j] := by
      apply unsplit_singleton <;> rcases hj with hj | hj <;> simp [hj, TokenKind.opensGroup]
    exact (ihl fun hs => absurd hs hleft).append (hone.append (ihr fun hs => absurd hs hright))
  | call hf h hc ih => exact (ih fun _ => Nat.succ_pos depth).group (by rw [hf]; rfl) hc
  | @separator sep _ _ _ _ hs hl hleft hr ihl ihr =>
    have hpos : 0 < depth := hu hs
    have hone : Unsplit depth [sep] :=
      unsplit_singleton (by simp [hs, TokenKind.opensGroup]) (by simp [hs]) fun _ => hpos
    exact (ihl fun _ => hpos).append (hone.append (ihr fun _ => hpos))

theorem Unsplit.segments_eq (h : Unsplit 0 ts) : segments ts = [ts] := by
  have hnil := h []
  rw [List.append_nil] at hnil
  rw [segments, hnil]
  simp [segmentsFrom]

theorem Spells.segments_eq (h : Spells ts u) (hu : u.kind ≠ .separator) : segments ts = [ts] :=
  (h.unsplit fun hs => absurd hs hu).segments_eq

/-- The links of a chain are spelled by the segments. -/
theorem Spells.forall₂_segments (h : Spells ts u) (hne : NoEmptyGroup ts) :
    List.Forall₂ (fun seg v => Spells seg v ∧ NoEmptyGroup seg) (segments ts) u.chain := by
  have hone : ∀ {ts : List Token} {u : Tree}, Spells ts u → NoEmptyGroup ts →
      u.kind ≠ .separator →
      List.Forall₂ (fun seg v => Spells seg v ∧ NoEmptyGroup seg) (segments ts) u.chain := by
    intro ts u h hne hu
    rw [h.segments_eq hu, Tree.chain_of_ne_separator hu]
    exact .cons ⟨h, hne⟩ .nil
  induction h with
  | gap => exact hone .gap hne (by decide)
  | operand hk =>
    refine hone (.operand hk) hne fun hs => ?_
    rw [Tree.kind, Tree.token] at hs
    simp [hs, TokenKind.isOperand] at hk
  | group ho h hu hc ih => exact hone (.group ho h hu hc) hne hu
  | operator hj hl hleft hr hright ihl ihr =>
    refine hone (.operator hj hl hleft hr hright) hne ?_
    rcases hj with hj | hj <;> simp [Tree.kind, Tree.token, hj]
  | call hf h hc ih => exact hone (.call hf h hc) hne (by simp [Tree.kind, Tree.token, hf])
  | @separator sep ts us l r hs hl hleft hr ihl ihr =>
    have hsplit : segments (ts ++ sep :: us) = ts :: segments us := by
      rw [segments, hl.unsplit fun hs => absurd hs hleft, segmentsFrom_of_separator hs]
      simp [segments]
    have hrest : NoEmptyGroup us := List.IsChain.of_cons hne.right_of_append
    rw [hsplit, Tree.chain, if_pos hs]
    exact .cons ⟨hl, hne.left_of_append⟩ (ihr hrest)

/-! ## Calls in a tree -/

/-- The subtree `u` stands somewhere in a tree, behind the tokens `a` and before the tokens `b`. -/
inductive Tree.Stands (u : Tree) : Tree → List Token → List Token → Prop
  | self : Stands u u [] []
  | left {t : Token} {l r : Tree} {a b : List Token} (ht : ¬ t.isMissing) (h : Stands u l a b) :
      Stands u (.node t l r) a (b ++ t :: r.written)
  | right {t : Token} {l r : Tree} {a b : List Token} (ht : ¬ t.isMissing) (h : Stands u r a b) :
      Stands u (.node t l r) (l.written ++ t :: a) b

theorem Tree.Stands.written_eq {v : Tree} {a b : List Token} (h : u.Stands v a b) :
    v.written = a ++ u.written ++ b := by
  induction h with
  | self => simp
  | left ht h ih => simp [Tree.written_node ht, ih]
  | right ht h ih => simp [Tree.written_node ht, ih]

/-- A token is in the first part, in the second one or between them. -/
theorem split_of_append_cons {before rest : List Token} (h : ts ++ j :: us = before ++ f :: rest) :
    (∃ mid, ts = before ++ f :: mid ∧ rest = mid ++ j :: us) ∨
      (before = ts ∧ f = j ∧ rest = us) ∨
      ∃ mid, before = ts ++ j :: mid ∧ us = mid ++ f :: rest := by
  rcases List.append_eq_append_iff.mp h with ⟨mid, hbefore, hmid⟩ | ⟨mid, hts, hmid⟩
  · cases mid with
    | nil =>
      obtain ⟨hj, hus⟩ := List.cons.inj hmid
      exact .inr (.inl ⟨by simpa using hbefore, hj.symm, hus.symm⟩)
    | cons k mid =>
      obtain ⟨rfl, hus⟩ := List.cons.inj hmid
      exact .inr (.inr ⟨mid, hbefore, hus⟩)
  · cases mid with
    | nil =>
      obtain ⟨hj, hus⟩ := List.cons.inj hmid
      exact .inr (.inl ⟨by simpa using hts.symm, hj, hus⟩)
    | cons k mid =>
      obtain ⟨rfl, hrest⟩ := List.cons.inj hmid
      exact .inl ⟨mid, hts, hrest⟩

theorem split_of_append_singleton {c : Token} {before rest : List Token}
    (h : ts ++ [c] = before ++ f :: rest) (hc : f ≠ c) :
    ∃ rest', rest = rest' ++ [c] ∧ ts = before ++ f :: rest' := by
  rcases split_of_append_cons h with ⟨mid, hts, hrest⟩ | ⟨-, hk, -⟩ | ⟨mid, -, hmid⟩
  · exact ⟨mid, hrest, hts⟩
  · exact absurd hk hc
  · simp at hmid

/-- A call that stands behind some tokens has its node in the tree, in its place: the tokens up to
the parenthesis that ends it spell what is on the right of the node. -/
def Tree.HoldsCall (v : Tree) (before : List Token) (f : Token) (rest : List Token) : Prop :=
  ∃ inner c after r, rest = inner ++ c :: after ∧ c.kind = .closing ∧ Spells inner r ∧
    (Tree.node f (.leaf .placeholder) r).Stands v (shown before) (shown after)

namespace Tree.HoldsCall

variable {v l r : Tree} {before rest : List Token}

theorem left (h : l.HoldsCall before f rest) (hj : j.shows) (hr : r.written = shown us) :
    (Tree.node j l r).HoldsCall before f (rest ++ j :: us) := by
  obtain ⟨inner, c, after, r', rfl, hc, hinner, hstands⟩ := h
  refine ⟨inner, c, after ++ j :: us, r', by simp, hc, hinner, ?_⟩
  rw [shown_append, shown_cons_of_shows hj, ← hr]
  exact .left (not_isMissing_of_shows hj) hstands

theorem right (h : r.HoldsCall before f rest) (hj : j.shows) (hl : l.written = shown ts) :
    (Tree.node j l r).HoldsCall (ts ++ j :: before) f rest := by
  obtain ⟨inner, c, after, r', hrest, hc, hinner, hstands⟩ := h
  refine ⟨inner, c, after, r', hrest, hc, hinner, ?_⟩
  rw [shown_append, shown_cons_of_shows hj, ← hl]
  exact .right (not_isMissing_of_shows hj) hstands

/-- Parentheses do not show. -/
theorem opening (h : v.HoldsCall before f rest) (ho : t.kind = .opening) :
    v.HoldsCall (t :: before) f rest := by
  have hshown : shown (t :: before) = shown before := by simp [shown, Token.shows, ho]
  rwa [HoldsCall, hshown]

theorem closing (h : v.HoldsCall before f rest) (hc : t.kind = .closing) :
    v.HoldsCall before f (rest ++ [t]) := by
  obtain ⟨inner, c, after, r, rfl, hc', hinner, hstands⟩ := h
  have hshown : shown (after ++ [t]) = shown after := by simp [shown, Token.shows, hc]
  exact ⟨inner, c, after ++ [t], r, by simp, hc', hinner, by rwa [hshown]⟩

/-- A token between two operands is no call, so a call is among those that spell one of them. -/
theorem joint (hts : ts ++ j :: us = before ++ f :: rest) (hf : f ≠ j) (hj : j.shows)
    (hl : l.written = shown ts) (hr : r.written = shown us)
    (hleft : ∀ {rest}, ts = before ++ f :: rest → l.HoldsCall before f rest)
    (hright : ∀ {before}, us = before ++ f :: rest → r.HoldsCall before f rest) :
    (Tree.node j l r).HoldsCall before f rest := by
  rcases split_of_append_cons hts with ⟨mid, hmid, rfl⟩ | ⟨-, he, -⟩ | ⟨mid, rfl, hmid⟩
  · exact (hleft hmid).left hj hr
  · exact absurd he hf
  · exact (hright hmid).right hj hl

end Tree.HoldsCall

/-- Every call has a node in the tree that is spelled. -/
theorem Spells.holdsCall (h : Spells ts u) {before rest : List Token}
    (hts : ts = before ++ f :: rest) (hf : f.kind = .call) : u.HoldsCall before f rest := by
  have hne : ∀ {t : Token}, t.kind ≠ .call → f ≠ t := fun hk he => hk (he ▸ hf)
  induction h generalizing before rest with
  | gap => simp at hts
  | operand hk =>
    rcases List.cons_eq_append_iff.mp hts with ⟨-, heq⟩ | ⟨before', -, hnil⟩
    · rw [← (List.cons.inj heq).1, hf] at hk
      cases hk
    · simp at hnil
  | group ho h hu hc ih =>
    rcases List.cons_eq_append_iff.mp hts with ⟨-, heq⟩ | ⟨before', rfl, hrest⟩
    · exact absurd (List.cons.inj heq).1 (hne (by simp [ho]))
    · obtain ⟨rest', rfl, hts'⟩ := split_of_append_singleton hrest (hne (by simp [hc]))
      exact ((ih hts').opening ho).closing hc
  | operator hj hl hleft hr hright ihl ihr =>
    refine .joint hts (hne ?_) ?_ hl.written_eq hr.written_eq ihl ihr <;>
      rcases hj with hj | hj <;> simp [hj, Token.shows]
  | @call f' c ts r hf' h hc ih =>
    rcases List.cons_eq_append_iff.mp hts with ⟨rfl, heq⟩ | ⟨before', rfl, hrest⟩
    · obtain ⟨rfl, rfl⟩ := List.cons.inj heq
      exact ⟨ts, c, [], r, rfl, hc, h, .self⟩
    · obtain ⟨rest', rfl, hts'⟩ := split_of_append_singleton hrest (hne (by simp [hc]))
      have hright : (Tree.node f' (.leaf .placeholder) r).HoldsCall ([] ++ f' :: before') f rest' :=
        (ih hts').right (by simp [Token.shows, hf']) Tree.written_placeholder
      exact hright.closing hc
  | separator hs hl hleft hr ihl ihr =>
    exact .joint hts (hne (by simp [hs])) (by simp [Token.shows, hs]) hl.written_eq hr.written_eq
      ihl ihr

/-! ## The arguments -/

/-- Nothing is written between the parentheses of a call: there is a single segment, and nothing in
it shows. -/
def NoArguments (inner : List Token) : Prop := ∃ seg, segments inner = [seg] ∧ shown seg = []

theorem Spells.noArguments_iff (h : Spells ts u) (hne : NoEmptyGroup ts) :
    NoArguments ts ↔ u.isMissing := by
  constructor
  · rintro ⟨seg, hseg, hshown⟩
    have hlinks := h.forall₂_segments hne
    rw [hseg, List.forall₂_cons_left_iff] at hlinks
    obtain ⟨v, links, ⟨hv, -⟩, hnil, hchain⟩ := hlinks
    rw [List.forall₂_nil_left_iff.mp hnil] at hchain
    rw [Tree.eq_of_chain_eq hchain, hv.isMissing_iff]
    exact hshown
  · intro hm
    have hs : u.kind ≠ .separator := by
      intro hs
      have hm : (u.kind == .missing) = true := hm
      rw [hs] at hm
      cases hm
    exact ⟨ts, h.segments_eq hs, h.isMissing_iff.mp hm⟩

/-- What is spelled by the tokens in the parentheses of a call is the list of its arguments, one for
each segment. -/
theorem Spells.arguments (h : Spells ts u) (hne : NoEmptyGroup ts) (f : Token) (left : Tree) :
    (NoArguments ts → (Tree.node f left u).arguments = []) ∧
    (¬ NoArguments ts → List.Forall₂ (fun seg v => v.written = shown seg ∧
      (v.isMissing ↔ shown seg = [])) (segments ts) (Tree.node f left u).arguments) ∧
    ∀ seg ∈ segments ts, (∀ t ∈ seg, ¬ t.isMissing) → (shown seg = [] ↔ seg = []) := by
  have hlinks := (h.forall₂_segments hne).imp fun seg v hv =>
    And.intro (hv.1.shown_eq_nil_iff hv.2) (And.intro hv.1.written_eq hv.1.isMissing_iff)
  obtain ⟨hempty, hlinks⟩ := (List.forall₂_and_left _ _).mp hlinks
  rw [h.noArguments_iff hne]
  refine ⟨fun hm => if_pos hm, fun hm => ?_, hempty⟩
  rw [Tree.arguments, if_neg hm]
  exact hlinks

/-- **The arguments of a call.**  Let no priority be the lowest of all, every operator be declared,
no group be empty, and every separator be in a call.  Then each call among the tokens is closed and
has its node in the tree, in its place.  The arguments of the node are what is written between the
parentheses: none if nothing is, else one for each segment between the separators, in order.  It is
a placeholder exactly if nothing shows in the segment, and read from left to right it gives back
what does.  Unless the segment has placeholders itself, it is empty if nothing shows in it. -/
theorem arguments_of_call {polish : List Token} {tree : Tree}
    (hlow : ∀ q ∈ d.priorities, Dialect.lowestPriority < q) (hdeclares : ∀ t ∈ ts, d.Declares t)
    (hne : NoEmptyGroup ts) (hcalls : InCalls [] ts) (hp : Polish.ofTokens d ts = .ok polish)
    (ht : Tree.ofPolish polish = .ok tree) :
    ∀ before f rest, ts = before ++ f :: rest → f.kind = .call →
      ∃ inner c after r, rest = inner ++ c :: after ∧ c.kind = .closing ∧
        openFrom [] inner = some [] ∧
        (Tree.node f (.leaf .placeholder) r).Stands tree (shown before) (shown after) ∧
        (NoArguments inner → (Tree.node f (.leaf .placeholder) r).arguments = []) ∧
        (¬ NoArguments inner → List.Forall₂ (fun seg v => v.written = shown seg ∧
          (v.isMissing ↔ shown seg = [])) (segments inner)
            (Tree.node f (.leaf .placeholder) r).arguments) ∧
        ∀ seg ∈ segments inner, (∀ t ∈ seg, ¬ t.isMissing) → (shown seg = [] ↔ seg = []) := by
  intro before f rest hts hf
  have hspells := Polish.spells_of_noEmptyGroup hne (fun t ht => (hdeclares t ht).binds hlow)
    hcalls hp ht
  obtain ⟨inner, c, after, r, rfl, hc, hinner, hstands⟩ := hspells.holdsCall hts hf
  have hinnerNe : NoEmptyGroup inner := by
    rw [hts] at hne
    exact (List.IsChain.of_cons hne.right_of_append).left_of_append
  exact ⟨inner, c, after, r, rfl, hc, hinner.openFrom_eq [], hstands,
    hinner.arguments hinnerNe f _⟩

/-- In `1+f(x,,g(2,3)!)` the call `f` has three arguments, of which the second is left out. -/
theorem arguments_of_call_in_sum :
    ∃ (ts polish : List Token) (tree : Tree) (f : Token) (r : Tree),
      ts.map (·.text) = ["1", "+", "f", "x", ",", ",", "g", "2", ",", "3", ")", "!", ")"] ∧
      Polish.ofTokens .standard ts = .ok polish ∧ Tree.ofPolish polish = .ok tree ∧
      (∃ a b, (Tree.node f (.leaf .placeholder) r).Stands tree a b ∧ a.map (·.text) = ["1", "+"]) ∧
      (Tree.node f (.leaf .placeholder) r).arguments.map (fun v => v.written.map (·.text)) =
        [["x"], [], ["g", "2", ",", "3", "!"]] := by
  let before : List Token := [⟨.literal, "1", some 0⟩, ⟨.operator, "+", some 1⟩]
  let f : Token := ⟨.call, "f", some 2⟩
  let rest : List Token :=
    [⟨.identifier, "x", some 4⟩, ⟨.separator, ",", some 5⟩, ⟨.separator, ",", some 6⟩,
      ⟨.call, "g", some 7⟩, ⟨.literal, "2", some 9⟩, ⟨.separator, ",", some 10⟩,
      ⟨.literal, "3", some 11⟩, ⟨.closing, ")", some 12⟩, ⟨.unary, "!", some 13⟩,
      ⟨.closing, ")", some 14⟩]
  have hlow : ∀ q ∈ Dialect.standard.priorities, Dialect.lowestPriority < q := by decide
  have hdeclares : ∀ t ∈ before ++ f :: rest, Dialect.standard.Declares t := by
    unfold Dialect.Declares
    decide
  have hne : NoEmptyGroup (before ++ f :: rest) := by simp [NoEmptyGroup, before, f, rest]
  have htree : ∃ polish tree, Polish.ofTokens .standard (before ++ f :: rest) = .ok polish ∧
      Tree.ofPolish polish = .ok tree := ⟨_, _, rfl, rfl⟩
  obtain ⟨polish, tree, hp, ht⟩ := htree
  obtain ⟨inner, c, after, r, hrest, hc, hopen, hstands, -, harguments, -⟩ :=
    arguments_of_call hlow hdeclares hne (by decide) hp ht before f rest rfl rfl
  -- the parenthesis that ends the call is the last token
  have hend : ∀ i < rest.length, rest[i]?.any (·.kind == .closing) →
      openFrom [] (rest.take i) = some [] → i = 9 := by decide
  have hinner : inner = rest.take 9 := by
    have hlength := hend inner.length (by simp [hrest]) (by simp [hrest, hc])
      (by simp [hrest, hopen])
    rw [← hlength, hrest, List.take_left]
  have hsegments : (segments inner).map (fun seg => (shown seg).map (·.text)) =
      [["x"], [], ["g", "2", ",", "3", "!"]] := by
    rw [hinner]
    rfl
  have hsome : ¬ NoArguments inner := by
    rintro ⟨seg, hseg, -⟩
    simp [hseg] at hsegments
  have hwritten : List.Forall₂ (· = ·)
      ((segments inner).map fun seg => (shown seg).map (·.text))
      ((Tree.node f (.leaf .placeholder) r).arguments.map fun v => v.written.map (·.text)) := by
    rw [List.forall₂_map_left_iff, List.forall₂_map_right_iff]
    exact (harguments hsome).imp fun seg v hv => congrArg (·.map Token.text) hv.1.symm
  rw [List.forall₂_eq_eq_eq] at hwritten
  exact ⟨_, polish, tree, f, r, rfl, hp, ht, ⟨_, _, hstands, rfl⟩, hwritten.symm.trans hsegments⟩

/-- A placeholder among the tokens is no argument, though its segment is not empty. -/
theorem placeholder_not_argument :
    ∃ (f m c : Token) (polish : List Token), f.kind = .call ∧ c.kind = .closing ∧
      (∀ q ∈ Dialect.standard.priorities, Dialect.lowestPriority < q) ∧
      (∀ t ∈ [f, m, c], Dialect.standard.Declares t) ∧ NoEmptyGroup [f, m, c] ∧
      InCalls [] [f, m, c] ∧ Polish.ofTokens .standard [f, m, c] = .ok polish ∧
      Tree.ofPolish polish = .ok (.node f (.leaf .placeholder) (.leaf m)) ∧
      segments [m] = [[m]] ∧
      (Tree.node f (.leaf .placeholder) (.leaf m)).arguments = [] := by
  refine ⟨⟨.call, "f", some 0⟩, ⟨.missing, "x", some 2⟩, ⟨.closing, ")", some 3⟩, _, rfl, rfl,
    by decide, ?_, by simp [NoEmptyGroup], by decide, rfl, rfl, rfl, rfl⟩
  unfold Dialect.Declares
  decide

end Reckon
