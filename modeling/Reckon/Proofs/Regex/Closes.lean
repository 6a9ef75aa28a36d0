import Reckon.Proofs.Regex.Matches
import Reckon.Proofs.Regex.Slices

/-!
# What matches end with

`Closes` marks the expressions whose matches end with a character of a set, and `Keeps` those that
may be put behind such an expression without changing that.
-/

namespace Reckon.Regex

open Text

variable {r t : Regex} {s u : CharSet} {p q : Place}

/-- Every match ends with a character of `s`. -/
def Closes (s : CharSet) (r : Regex) : Prop :=
  ∀ p, ∀ q ∈ r.ends p, ∃ cs c, p.rest = cs ++ c :: q.rest ∧ s.has c

/-- Every match that takes characters ends with one of `s`. -/
def Keeps (s : CharSet) (r : Regex) : Prop :=
  ∀ p, ∀ q ∈ r.ends p, q.rest = p.rest ∨ ∃ cs c, p.rest = cs ++ c :: q.rest ∧ s.has c

/-- The text of a match is not empty, and its last character is one of `s`. -/
theorem Closes.text_eq (h : Closes s r) (hq : q ∈ r.ends p) :
    ∃ cs c, Slice.text ⟨p.offset, q.offset, p.rest⟩ = String.ofList (cs ++ [c]) ∧ s.has c := by
  obtain ⟨cs, c, hrest, hc⟩ := h p q hq
  obtain ⟨ds, hreached, hoffset⟩ := reaches_of_mem_ends r p q hq
  obtain rfl : ds = cs ++ [c] := by
    rw [hrest, ← List.singleton_append, ← List.append_assoc] at hreached
    exact (List.append_cancel_right hreached).symm
  exact ⟨cs, c, by rw [hoffset, hreached, Slice.text_append], hc⟩

/-! ## Expressions that close -/

theorem closes_one (s : CharSet) : Closes s (one s) := by
  intro p q hq
  rw [ends] at hq
  split at hq
  · cases hq
  · rename_i c cs hrest
    split at hq
    · rename_i hc
      rw [List.mem_singleton.mp hq]
      exact ⟨[], c, hrest, hc⟩
    · cases hq

theorem Closes.mono (h : Closes s r) (hsu : ∀ c, s.has c → u.has c) : Closes u r := by
  intro p q hq
  obtain ⟨cs, c, hrest, hc⟩ := h p q hq
  exact ⟨cs, c, hrest, hsu c hc⟩

/-- A sequence closes as its second part does. -/
theorem Closes.seq (h : Closes s t) (r : Regex) : Closes s (.seq r t) := by
  intro p q hq
  obtain ⟨q', hq', hq⟩ := exists_of_mem_ends_seq hq
  obtain ⟨cs, hrest, -⟩ := reaches_of_mem_ends r p q' hq'
  obtain ⟨ds, c, hrest', hc⟩ := h q' q hq
  exact ⟨cs ++ ds, c, by rw [hrest, hrest', List.append_assoc], hc⟩

/-- What is put behind and keeps the last character leaves the sequence closed. -/
theorem Closes.seq_keeps (h : Closes s r) (ht : Keeps s t) : Closes s (.seq r t) := by
  intro p q hq
  obtain ⟨q', hq', hq⟩ := exists_of_mem_ends_seq hq
  obtain ⟨cs, c, hrest, hc⟩ := h p q' hq'
  rcases ht q' q hq with hsame | ⟨ds, e, hrest', he⟩
  · exact ⟨cs, c, by rw [hrest, hsame], hc⟩
  · exact ⟨cs ++ c :: ds, e, by rw [hrest, hrest', List.append_assoc, List.cons_append], he⟩

/-! ## Expressions that keep -/

theorem Closes.keeps (h : Closes s r) : Keeps s r := fun p q hq => .inr (h p q hq)

theorem keeps_empty (s : CharSet) : Keeps s empty := by
  intro p q hq
  rw [ends] at hq
  exact .inl (by rw [List.mem_singleton.mp hq])

theorem keeps_anchor (s : CharSet) (a : Anchor) : Keeps s (anchor a) := by
  intro p q hq
  rw [ends] at hq
  split at hq
  · exact .inl (by rw [List.mem_singleton.mp hq])
  · cases hq

theorem Keeps.seq (h : Keeps s r) (ht : Keeps s t) : Keeps s (.seq r t) := by
  intro p q hq
  obtain ⟨q', hq', hq⟩ := exists_of_mem_ends_seq hq
  rcases h p q' hq' with hsame | ⟨cs, c, hrest, hc⟩
  · rw [← hsame]
    exact ht q' q hq
  · rcases ht q' q hq with hsame | ⟨ds, e, hrest', he⟩
    · exact .inr ⟨cs, c, by rw [hrest, hsame], hc⟩
    · exact .inr ⟨cs ++ c :: ds, e, by rw [hrest, hrest', List.append_assoc, List.cons_append], he⟩

theorem Keeps.either (h : Keeps s r) (ht : Keeps s t) : Keeps s (.either r t) := by
  intro p q hq
  rw [ends] at hq
  split at hq
  · exact ht p q hq
  · exact h p q hq
  · rcases List.mem_append.mp (mem_of_mem_distinct hq) with hq | hq
    · exact h p q hq
    · exact ht p q hq

theorem last_of_mem_runFrom {groups : List (String × Slice)} {before : Option Char} {offset : Nat}
    {rest : List Char} (h : q ∈ runFrom s groups before offset rest) :
    q.rest = rest ∨ ∃ cs c, rest = cs ++ c :: q.rest ∧ s.has c := by
  induction rest generalizing before offset with
  | nil => exact .inl (by rw [List.mem_singleton.mp h])
  | cons c cs ih =>
    rw [runFrom] at h
    rcases List.mem_cons.mp h with rfl | h
    · exact .inl rfl
    · split at h
      · rename_i hc
        rcases ih h with hsame | ⟨ds, e, hrest, he⟩
        · exact .inr ⟨[], c, by rw [hsame]; rfl, hc⟩
        · exact .inr ⟨c :: ds, e, by rw [hrest]; rfl, he⟩
      · cases h

theorem keeps_run (s : CharSet) (greedy : Bool) : Keeps s (run s greedy) := by
  intro p q hq
  have hmem : q ∈ runFrom s p.groups p.before p.offset p.rest := by
    rw [ends] at hq
    split at hq
    · exact List.mem_reverse.mp hq
    · exact hq
  exact last_of_mem_runFrom hmem

end Reckon.Regex
