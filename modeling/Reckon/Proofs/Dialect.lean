import Reckon.Dialect
import Reckon.Proofs.Except

/-!
# What building a dialect guarantees

A dialect that is built can tell its symbols apart: the parentheses differ, and neither of them
stands in the separator or in the name of an operator (`Dialect.Distinct`, `distinct_of_build`).
What is said of the tokens of a text rests on this alone.  So it holds whatever expressions words
are found by, also those that `Regex.read` has no written form for.
-/

namespace Reckon.Dialect

variable {s : Spec} {d : Dialect} {name : String}

/-- The characters of a symbol are some, and none of them is a parenthesis. -/
structure FreeOfParens (d : Dialect) (symbol : String) : Prop where
  ne_nil : symbol.toList ≠ []
  opening : d.opening ∉ symbol.toList
  closing : d.closing ∉ symbol.toList

/-- The symbols of the dialect can be told apart, and calls are sought by their names. -/
structure Distinct (d : Dialect) : Prop where
  call_eq :
    d.call = .seq (.named "name" d.identifier) (.named "paren" (.one (.char d.opening)))
  parens_ne : d.opening ≠ d.closing
  separator : d.FreeOfParens d.separator
  operators : ∀ op ∈ d.operators, d.FreeOfParens op.name ∧ op.name ≠ d.separator
  unaries : ∀ op ∈ d.unaries, d.FreeOfParens op.name ∧ op.name ≠ d.separator

theorem checkName_ok (h : checkName s name = .ok ()) :
    name.toList ≠ [] ∧ name ≠ s.separator ∧ s.opening ∉ name.toList ∧ s.closing ∉ name.toList := by
  rw [checkName] at h
  split at h
  · cases h
  · rename_i hempty
    split at h
    · cases h
    · rename_i hshared
      simp only [not_or] at hshared
      refine ⟨fun hnil => hempty ?_, hshared⟩
      rw [String.isEmpty_iff, ← String.toList_eq_nil_iff, hnil]

theorem checkNames_ok {earlier names : List String} (h : checkNames s earlier names = .ok ()) :
    ∀ name ∈ names, checkName s name = .ok () := by
  induction names generalizing earlier with
  | nil => exact fun name hname => nomatch hname
  | cons first names ih =>
    obtain ⟨_, hfirst, h⟩ := exists_of_bind_eq_ok h
    dsimp only at h
    split at h
    · cases h
    · exact List.forall_mem_cons.mpr ⟨hfirst, ih h⟩

theorem checkSeparator_ok (h : checkSeparator s = .ok ()) :
    s.separator.toList ≠ [] ∧ s.opening ≠ s.closing ∧ s.opening ∉ s.separator.toList ∧
      s.closing ∉ s.separator.toList := by
  simp only [checkSeparator] at h
  split at h
  · cases h
  · rename_i hempty
    split at h
    · cases h
    · rename_i hne
      split at h
      · cases h
      · rename_i hopening
        split at h
        · cases h
        · rename_i hclosing
          refine ⟨fun hnil => hempty (by simp [hnil]), hne, ?_, ?_⟩
          · simpa using hopening
          · simpa using hclosing

/-- The parts that a dialect is built from. -/
theorem build_ok (h : Dialect.build s = .ok d) : ∃ identifier literal call,
    callPattern identifier s.opening = .ok call ∧ checkSeparator s = .ok () ∧
      checkNames s [] (s.operators.map (·.name)) = .ok () ∧
      checkNames s [] (s.unaries.map (·.name)) = .ok () ∧
      d = ⟨identifier, literal, call, s.opening, s.closing, s.separator, s.operators,
        s.unaries⟩ := by
  obtain ⟨identifier, -, h⟩ := exists_of_bind_eq_ok h
  obtain ⟨literal, -, h⟩ := exists_of_bind_eq_ok h
  obtain ⟨call, hcall, h⟩ := exists_of_bind_eq_ok h
  obtain ⟨_, hseparator, h⟩ := exists_of_bind_eq_ok h
  obtain ⟨_, hoperators, h⟩ := exists_of_bind_eq_ok h
  obtain ⟨_, hunaries, h⟩ := exists_of_bind_eq_ok h
  exact ⟨identifier, literal, call, hcall, hseparator, hoperators, hunaries,
    (Except.ok.inj h).symm⟩

/-- The patterns for words are read off the declaration. -/
theorem patterns_of_build (h : Dialect.build s = .ok d) :
    readPattern .identifier s.identifier = .ok d.identifier ∧
      readPattern .literal s.literal = .ok d.literal := by
  obtain ⟨identifier, hidentifier, h⟩ := exists_of_bind_eq_ok h
  obtain ⟨literal, hliteral, h⟩ := exists_of_bind_eq_ok h
  obtain ⟨call, -, h⟩ := exists_of_bind_eq_ok h
  obtain ⟨_, -, h⟩ := exists_of_bind_eq_ok h
  obtain ⟨_, -, h⟩ := exists_of_bind_eq_ok h
  obtain ⟨_, -, h⟩ := exists_of_bind_eq_ok h
  rw [← Except.ok.inj h]
  exact ⟨hidentifier, hliteral⟩

/-- The symbols are those of the declaration. -/
theorem symbols_of_build (h : Dialect.build s = .ok d) :
    d.separator = s.separator ∧ d.operators = s.operators ∧ d.unaries = s.unaries := by
  obtain ⟨identifier, literal, call, -, -, -, -, rfl⟩ := build_ok h
  exact ⟨rfl, rfl, rfl⟩

theorem callPattern_ok {identifier call : Regex} {opening : Char}
    (h : callPattern identifier opening = .ok call) :
    call = .seq (.named "name" identifier) (.named "paren" (.one (.char opening))) := by
  rw [callPattern] at h
  split at h
  · cases h
  · exact (Except.ok.inj h).symm

theorem distinct_of_build (h : Dialect.build s = .ok d) : d.Distinct := by
  obtain ⟨identifier, literal, call, hcall, hseparator, hoperators, hunaries, rfl⟩ := build_ok h
  obtain ⟨hne, hparens, hopening, hclosing⟩ := checkSeparator_ok hseparator
  refine ⟨callPattern_ok hcall, hparens, ⟨hne, hopening, hclosing⟩, ?_, ?_⟩
  · intro op hop
    obtain ⟨hname, hsep, ho, hc⟩ :=
      checkName_ok (checkNames_ok hoperators op.name (List.mem_map_of_mem hop))
    exact ⟨⟨hname, ho, hc⟩, hsep⟩
  · intro op hop
    obtain ⟨hname, hsep, ho, hc⟩ :=
      checkName_ok (checkNames_ok hunaries op.name (List.mem_map_of_mem hop))
    exact ⟨⟨hname, ho, hc⟩, hsep⟩

end Reckon.Dialect
