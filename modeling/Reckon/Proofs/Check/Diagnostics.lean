import Reckon.Check.Report

/-!
# The diagnostics of reports

Each diagnostic is an error with a code.  The code tells the fault from the findings of the checks
(`Report.mem_diagnostics`), and a report without diagnostics is one that passes
(`Report.passes_iff`).
-/

namespace Reckon

/-! ## Codes -/

namespace Diagnostic

variable (g : Diagnostic)

@[simp] theorem code_pointing (span : Option Span) (message : String) :
    (g.pointing span message).code = g.code := by
  cases span <;> rfl

@[simp] theorem code_advising (help : String) : (g.advising help).code = g.code := rfl

@[simp] theorem code_coded (code : Code) (message : String) :
    (coded code message).code = some code := rfl

@[simp] theorem isError_pointing (span : Option Span) (message : String) :
    (g.pointing span message).isError = g.isError := by
  cases span <;> rfl

@[simp] theorem isError_advising (help : String) : (g.advising help).isError = g.isError := rfl

@[simp] theorem isError_coded (code : Code) (message : String) :
    (coded code message).isError := rfl

theorem message_pointing (span : Option Span) (message : String) :
    (g.pointing span message).message = g.message := by
  cases span <;> rfl

/-- Without warnings, a list is refused as soon as it is not empty. -/
theorem settle_of_isError {gs : List Diagnostic} (h : ∀ g ∈ gs, g.isError) :
    settle gs = if gs = [] then .ok () else .error gs := by
  unfold settle
  cases gs with
  | nil => rfl
  | cons g gs => rw [List.any_cons, h g List.mem_cons_self, if_neg (List.cons_ne_nil g gs)]; rfl

end Diagnostic

namespace Fault

variable {f : Fault}

/-- The places of a fault only add labels. -/
theorem foldl_pointing {α : Type} (look : Diagnostic → α)
    (hlook : ∀ g span message, look (g.pointing span message) = look g)
    (places : List (Option Span × String)) (g : Diagnostic) :
    look (places.foldl (fun g place => g.pointing place.1 place.2) g) = look g := by
  induction places generalizing g with
  | nil => rfl
  | cons place places ih => exact (ih _).trans (hlook g place.1 place.2)

theorem code_diagnostic (f : Fault) : f.diagnostic.code = some f.code :=
  foldl_pointing (·.code) Diagnostic.code_pointing f.places _

theorem isError_diagnostic (f : Fault) : f.diagnostic.isError :=
  foldl_pointing (·.isError) Diagnostic.isError_pointing f.places _

/-- A fault with one place has one label there. -/
theorem labels_diagnostic {span : Option Span} {message : String}
    (h : f.places = [(span, message)]) : f.diagnostic.labels.map (·.span) = span.toList := by
  rw [diagnostic, h]
  cases span <;> rfl

end Fault

/-! ## Reports -/

/-- Only what is selected is looked for. -/
theorem Checker.ifSelected_eq_some_iff {α : Type} {c : Checker} {check : Check} {v : Unit → α}
    {w : α} : c.ifSelected check v = some w ↔ check ∈ c.checks ∧ v () = w := by
  simp [ifSelected]

namespace Report

variable {α : Type} {r : Report} {g : Diagnostic} {tell : α → Diagnostic}
  {v : Option (Verdicts α)}

/-- An error with a code that is not one of a structural fault. -/
def Unstructural (g : Diagnostic) : Prop :=
  g.isError ∧ ∃ code, g.code = some code ∧ ¬ code.isStructural

/-- A check tells what it found wrong. -/
theorem exists_of_mem_diagnose (h : g ∈ diagnose tell v) :
    ∃ w a, v = some w ∧ a ∈ w.invalid ∧ g = tell a := by
  cases v with
  | none => cases h
  | some w =>
    obtain ⟨a, ha, rfl⟩ := List.mem_map.mp h
    exact ⟨w, a, rfl, ha, rfl⟩

theorem unstructural_of_mem_diagnose (htell : ∀ a, Unstructural (tell a))
    (h : g ∈ diagnose tell v) : Unstructural g := by
  obtain ⟨w, a, -, -, rfl⟩ := exists_of_mem_diagnose h
  exact htell a

/-- Only the fault is told with the code of a structural fault. -/
theorem mem_diagnostics (h : g ∈ r.diagnostics) : g ∈ r.faultDiagnostics ∨ Unstructural g := by
  simp only [diagnostics, List.mem_append] at h
  rcases h with ((((((h | h) | h) | h) | h) | h) | h) | h
  · exact .inl h
  · refine .inr (unstructural_of_mem_diagnose (fun p => ?_) h)
    exact ⟨by simp [Paren.diagnostic], .unbalancedParenthesis, by simp [Paren.diagnostic],
      by decide⟩
  · refine .inr (unstructural_of_mem_diagnose (fun u => ?_) h)
    exact ⟨by simp [OperandUse.diagnostic], .missingOperand, by simp [OperandUse.diagnostic],
      by decide⟩
  · refine .inr (unstructural_of_mem_diagnose (fun e => ?_) h)
    exact ⟨by simp [EmptyArguments.diagnostic], .emptyArgument,
      by simp [EmptyArguments.diagnostic], by decide⟩
  · refine .inr (unstructural_of_mem_diagnose (fun c => ?_) h)
    unfold ArgumentCount.diagnostic
    cases c.expected with
    | none => exact ⟨by simp, .argumentCount, by simp, by decide⟩
    | some arity => exact ⟨by simp, .argumentCount, by simp, by decide⟩
  · refine .inr (unstructural_of_mem_diagnose (fun u => ?_) h)
    exact ⟨by simp [SeparatorUse.diagnostic], .orphanSeparator,
      by simp [SeparatorUse.diagnostic], by decide⟩
  all_goals
    refine .inr (unstructural_of_mem_diagnose (fun u => ?_) h)
    exact ⟨by simp [NameUse.diagnostic], u.sort.code, by simp [NameUse.diagnostic],
      by cases u.sort <;> decide⟩

/-- A fault is told as what it is or not at all. -/
theorem mem_faultDiagnostics (h : g ∈ r.faultDiagnostics) :
    ∃ f, r.fault = some f ∧ g = f.diagnostic := by
  unfold faultDiagnostics at h
  cases hf : r.fault with
  | none => rw [hf] at h; cases h
  | some f =>
    simp only [hf] at h
    split at h
    · cases h
    · exact ⟨f, rfl, List.mem_singleton.mp h⟩

theorem isError_of_mem_diagnostics (h : g ∈ r.diagnostics) : g.isError := by
  rcases mem_diagnostics h with h | h
  · obtain ⟨f, -, rfl⟩ := mem_faultDiagnostics h
    exact f.isError_diagnostic
  · exact h.1

/-- Nothing is told without a code. -/
theorem code_of_mem_diagnostics (h : g ∈ r.diagnostics) : ∃ code, g.code = some code := by
  rcases mem_diagnostics h with h | h
  · obtain ⟨f, -, rfl⟩ := mem_faultDiagnostics h
    exact ⟨f.code, f.code_diagnostic⟩
  · obtain ⟨-, code, hcode, -⟩ := h
    exact ⟨code, hcode⟩

/-- A check is silent as long as it does not fail. -/
theorem diagnose_eq_nil_iff : diagnose tell v = [] ↔ fails v = false := by
  cases v with
  | none => simp [diagnose, fails]
  | some v => simp [diagnose, fails, Verdicts.passes]

theorem failedChecks_eq_nil_iff : r.failedChecks = [] ↔
    fails r.parentheses = false ∧ fails r.operands = false ∧ fails r.emptyArguments = false ∧
    fails r.argumentCounts = false ∧ fails r.separators = false ∧
    fails r.variableNames = false ∧ fails r.functionNames = false := by
  simp [failedChecks, Check.all, List.filter_eq_nil_iff]

/-- The check of parentheses takes over a fault only if it fails itself. -/
theorem faultDiagnostics_eq_nil_iff (h : fails r.parentheses = false) :
    r.faultDiagnostics = [] ↔ r.fault = none := by
  unfold faultDiagnostics
  cases r.fault with
  | none => simp
  | some f => simp [h]

/-- A report passes if and only if it has nothing to tell. -/
theorem passes_iff : r.passes ↔ r.diagnostics = [] := by
  unfold passes diagnostics
  simp only [Bool.and_eq_true, Option.isNone_iff_eq_none, List.isEmpty_iff,
    failedChecks_eq_nil_iff, List.append_eq_nil_iff, diagnose_eq_nil_iff]
  constructor
  · rintro ⟨hfault, hparens, hrest⟩
    exact ⟨⟨⟨⟨⟨⟨⟨(faultDiagnostics_eq_nil_iff hparens).mpr hfault, hparens⟩, hrest.1⟩, hrest.2.1⟩,
      hrest.2.2.1⟩, hrest.2.2.2.1⟩, hrest.2.2.2.2.1⟩, hrest.2.2.2.2.2⟩
  · rintro ⟨⟨⟨⟨⟨⟨⟨hfault, hparens⟩, h1⟩, h2⟩, h3⟩, h4⟩, h5⟩, h6⟩
    exact ⟨(faultDiagnostics_eq_nil_iff hparens).mp hfault, hparens, h1, h2, h3, h4, h5, h6⟩

theorem result_eq (r : Report) :
    r.result = if r.diagnostics = [] then .ok () else .error r.diagnostics :=
  Diagnostic.settle_of_isError fun _ hg => isError_of_mem_diagnostics hg

end Report

end Reckon
