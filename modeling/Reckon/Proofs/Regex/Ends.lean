import Reckon.Regex.Search

/-!
# Preferred matches

Where a match ends, for the expressions that a tokenizer is made of: the first place of
`Regex.ends` is the preferred one.  `StartsWord` marks the expressions whose matches begin a word,
so that they pass over the inside of other words.
-/

namespace Reckon.Regex

open Text

variable {r t : Regex} {s : CharSet} {p q q' : Place} {c : Char} {cs rest : List Char}

attribute [local simp] ends

/-! ## Sequences and alternatives -/

theorem head?_distinct (ps : List Place) : (distinct ∅ ps).head? = ps.head? := by
  cases ps <;> simp [distinct]

theorem ends_seq_of_nil (h : r.ends p = []) : (seq r t).ends p = [] := by simp [h]

theorem ends_seq_of_singleton (h : r.ends p = [q]) : (seq r t).ends p = t.ends q := by
  simp [h]

/-- All ways but one fail. -/
theorem ends_seq_of_flatMap (h : (r.ends p).flatMap t.ends = [q]) : (seq r t).ends p = [q] := by
  rw [ends]
  split
  · rename_i hr
    simp [hr] at h
  · rename_i hr
    simpa [hr] using h
  · rw [h]
    simp [distinct]

theorem head?_ends_seq (h : (r.ends p).head? = some q) (h' : (t.ends q).head? = some q') :
    ((seq r t).ends p).head? = some q' := by
  rw [ends]
  split
  · rename_i hr
    simp [hr] at h
  · rename_i hr
    rw [hr] at h
    rw [Option.some.inj h]
    exact h'
  · obtain ⟨ps, hr⟩ := List.head?_eq_some_iff.mp h
    obtain ⟨qs, ht⟩ := List.head?_eq_some_iff.mp h'
    rw [head?_distinct, hr, List.flatMap_cons, ht]
    rfl

theorem head?_ends_either (h : (r.ends p).head? = some q) :
    ((either r t).ends p).head? = some q := by
  obtain ⟨ps, hr⟩ := List.head?_eq_some_iff.mp h
  cases ht : t.ends p with
  | nil => simp [hr, ht]
  | cons q' qs => simp [hr, ht, head?_distinct]

theorem ends_either_of_nil (h : r.ends p = []) : (either r t).ends p = t.ends p := by
  rw [ends, h]

/-! ## Runs -/

/-- The place behind `cs`, before `rest`. -/
def Place.behind (p : Place) (cs rest : List Char) : Place :=
  ⟨p.offset + width cs, cs.getLast?.or p.before, rest, p.groups⟩

theorem Place.next_behind (p : Place) (c : Char) (cs rest : List Char) :
    (p.next c (cs ++ rest)).behind cs rest = p.behind (c :: cs) rest := by
  simp only [behind, next, width_cons, List.getLast?_cons, Place.mk.injEq]
  refine ⟨by omega, ?_, trivial, trivial⟩
  cases cs.getLast? <;> rfl

theorem Place.behind_behind (p : Place) (cs ds rest : List Char) :
    (p.behind cs (ds ++ rest)).behind ds rest = p.behind (cs ++ ds) rest := by
  simp only [behind, width_append, List.getLast?_append, Place.mk.injEq]
  refine ⟨by omega, ?_, trivial, trivial⟩
  cases ds.getLast? <;> rfl

/-- A run reaches every place inside `cs`, and ends behind it. -/
theorem runFrom_append (p : Place) (hcs : ∀ c ∈ cs, s.has c) (hrest : ∀ c ∈ rest.head?, ¬ s.has c) :
    ∃ inner, runFrom s p.groups p.before p.offset (cs ++ rest) = inner ++ [p.behind cs rest] ∧
      ∀ q ∈ inner, ∃ front c back, cs = front ++ c :: back ∧
        q = p.behind front (c :: back ++ rest) := by
  induction cs generalizing p with
  | nil =>
    refine ⟨[], ?_, by simp⟩
    cases rest with
    | nil => simp [runFrom, Place.behind]
    | cons c rest =>
      have hc : ¬ s.has c := hrest c rfl
      simp [runFrom, Place.behind, hc]
  | cons c cs ih =>
    have hc : s.has c := hcs c (by simp)
    obtain ⟨inner, heq, hinner⟩ := ih (p.next c (cs ++ rest)) fun d hd => hcs d (by simp [hd])
    refine ⟨⟨p.offset, p.before, c :: cs ++ rest, p.groups⟩ :: inner, ?_, ?_⟩
    · rw [List.cons_append, runFrom, if_pos hc, ← Place.next_behind, List.cons_append, ← heq]
      rfl
    · intro q hq
      rcases List.mem_cons.mp hq with rfl | hq
      · exact ⟨[], c, cs, rfl, by simp [Place.behind]⟩
      · obtain ⟨front, e, back, rfl, rfl⟩ := hinner q hq
        refine ⟨c :: front, e, back, rfl, ?_⟩
        have hnext := p.next_behind c front (e :: back ++ rest)
        simpa [Place.next, Place.behind] using hnext

/-- The preferred end of a greedy run is behind all of it. -/
theorem head?_ends_run (hp : p.rest = cs ++ rest) (hcs : ∀ c ∈ cs, s.has c)
    (hrest : ∀ c ∈ rest.head?, ¬ s.has c) :
    ((run s true).ends p).head? = some (p.behind cs rest) := by
  obtain ⟨inner, heq, -⟩ := runFrom_append p hcs hrest
  simp [hp, heq]

/-! ## Words -/

/-- The characters behind `p` and before `rest` end a word there. -/
theorem ends_wordBoundary (hp : p.wordBefore) (hrest : ∀ c ∈ p.rest.head?, ¬ isWord c) :
    (anchor .wordBoundary).ends p = [p] := by
  have hafter : p.wordAfter = false := by
    cases h : p.rest.head? with
    | none => simp [Place.wordAfter, h]
    | some c => simpa [Place.wordAfter, h] using hrest c h
  simp [Anchor.holds, hp, hafter]

theorem ends_wordBoundary_start (hp : ¬ p.wordBefore) (hc : p.rest.head? = some c) (hw : isWord c) :
    (anchor .wordBoundary).ends p = [p] := by
  simp [Anchor.holds, Place.wordAfter, hp, hc, hw]

theorem ends_wordBoundary_inside (hp : p.wordBefore) (hc : p.rest.head? = some c) (hw : isWord c) :
    (anchor .wordBoundary).ends p = [] := by
  simp [Anchor.holds, Place.wordAfter, hp, hc, hw]

theorem wordBefore_behind_of_getLast? (hc : cs.getLast? = some c) (hw : isWord c) :
    (p.behind cs rest).wordBefore := by
  simpa [Place.behind, Place.wordBefore, hc] using hw

theorem wordBefore_behind (hp : p.wordBefore) (hcs : ∀ c ∈ cs, isWord c) :
    (p.behind cs rest).wordBefore := by
  cases h : cs.getLast? with
  | none => simpa [Place.behind, Place.wordBefore, h] using hp
  | some c => exact wordBefore_behind_of_getLast? h (hcs c (List.mem_of_getLast? h))

/-- The rest of a word is taken as a whole. -/
theorem ends_run_wordBoundary (hp : p.rest = cs ++ rest) (hword : p.wordBefore)
    (hcs : ∀ c ∈ cs, s.has c ∧ isWord c) (hrest : ∀ c ∈ rest.head?, ¬ s.has c ∧ ¬ isWord c) :
    (seq (run s true) (anchor .wordBoundary)).ends p = [p.behind cs rest] := by
  obtain ⟨inner, heq, hinner⟩ :=
    runFrom_append p (fun c hc => (hcs c hc).1) fun c hc => (hrest c hc).1
  refine ends_seq_of_flatMap ?_
  have hend : (anchor .wordBoundary).ends (p.behind cs rest) = [p.behind cs rest] :=
    ends_wordBoundary (wordBefore_behind hword fun c hc => (hcs c hc).2) fun c hc => (hrest c hc).2
  have hnone : ∀ q ∈ inner.reverse, (anchor .wordBoundary).ends q = [] := by
    intro q hq
    obtain ⟨front, c, back, rfl, rfl⟩ := hinner q (List.mem_reverse.mp hq)
    exact ends_wordBoundary_inside (c := c)
      (wordBefore_behind hword fun d hd => (hcs d (by simp [hd])).2) rfl (hcs c (by simp)).2
  have hnil : inner.reverse.flatMap (anchor .wordBoundary).ends = [] :=
    List.flatMap_eq_nil_iff.mpr hnone
  simp only [ends, hp, heq, if_true, List.reverse_append, List.reverse_singleton,
    List.singleton_append, List.flatMap_cons] at hnil hend ⊢
  rw [hend, hnil]
  rfl

/-! ## Beginnings -/

/-- Every match begins with a character of `s`. -/
def Opens (s : CharSet) (r : Regex) : Prop :=
  ∀ p : Place, (∀ c ∈ p.rest.head?, ¬ s.has c) → r.ends p = []

/-- Every match begins with a character of `s` that begins a word. -/
def StartsWord (s : CharSet) (r : Regex) : Prop :=
  ∀ p : Place, (∀ c ∈ p.rest.head?, s.has c → p.wordBefore) → r.ends p = []

theorem opens_one (s : CharSet) : Opens s (one s) := by
  intro p h
  rw [ends]
  split
  · rfl
  · rename_i c cs hc
    rw [if_neg (h c (by rw [hc]; rfl))]

theorem Opens.seq (h : Opens s r) (t : Regex) : Opens s (seq r t) :=
  fun p hp => ends_seq_of_nil (h p hp)

theorem StartsWord.seq (h : StartsWord s r) (t : Regex) : StartsWord s (.seq r t) :=
  fun p hp => ends_seq_of_nil (h p hp)

theorem StartsWord.named (h : StartsWord s r) (name : String) : StartsWord s (named name r) :=
  fun p hp => by rw [ends, h p hp]; rfl

theorem Opens.startsWord (h : Opens s r) (hs : ∀ c, s.has c → isWord c) :
    StartsWord s (.seq (anchor .wordBoundary) r) := by
  intro p hp
  by_cases hc : ∃ c, p.rest.head? = some c ∧ s.has c
  · obtain ⟨c, hc, hsc⟩ := hc
    exact ends_seq_of_nil (ends_wordBoundary_inside (hp c hc hsc) hc (hs c hsc))
  · have hr : r.ends p = [] := h p fun c hc' hsc => hc ⟨c, hc', hsc⟩
    by_cases ha : Anchor.holds .wordBoundary p
    · rw [ends_seq_of_singleton (q := p) (by simp [ha]), hr]
    · exact ends_seq_of_nil (by simp [ha])

end Reckon.Regex
