import Reckon.Proofs.CommandLine.Prepare
import Reckon.Proofs.Number.Text
import Reckon.Proofs.OrderedMap
import Reckon.Proofs.Term.Unbound

/-!
# What the command line prints

If something is wrong beforehand, nothing is printed; else the selected artifacts come first and the
result, if there is one, on a line behind them (`CommandLine.Disciplined`).
-/

namespace Reckon

variable {D : Domain}

/-! ## Selected checks -/

/-- Only checks that are run find something wrong. -/
theorem Checker.mem_checks_of_mem_failedChecks {c : Checker} {d : Dialect} {source : String}
    {check : Check} (h : check ∈ (c.check d source).failedChecks) : check ∈ c.checks := by
  have hrun : ∀ {α : Type} {check : Check} {v : Unit → Verdicts α},
      Report.fails (c.ifSelected check v) → check ∈ c.checks := by
    intro α check v hfails
    obtain ⟨w, hw, -⟩ := (Option.any_eq_true _ _).mp hfails
    exact (ifSelected_eq_some_iff.mp hw).1
  have hfails := (List.mem_filter.mp h).2
  unfold Checker.check at hfails
  cases hp : d.parse source with
  | ok p =>
    rw [hp] at hfails
    simp only [checkTree, checkText] at hfails
    cases check <;> exact hrun hfails
  | error f =>
    rw [hp] at hfails
    simp only [checkText] at hfails
    cases check with
    | parentheses => exact hrun hfails
    | _ => cases hfails

/-- A report passes if the text has a tree and no check that was run found anything wrong. -/
theorem Compiler.passes_compile_iff (c : Compiler D) (source : String) :
    (c.compile source).report.passes ↔ (∃ p, c.dialect.parse source = .ok p) ∧
      ∀ check ∈ c.checker.checks, check ∉ (c.compile source).report.failedChecks := by
  have hfault : (c.compile source).report.fault.isNone ↔ ∃ p, c.dialect.parse source = .ok p := by
    rcases compile_of_parse c source with ⟨p, hp, he⟩ | ⟨f, polish, hf, he⟩
    · rw [he, hp]
      exact ⟨fun _ => ⟨p, rfl⟩, fun _ => rfl⟩
    · rw [he, hf]
      exact ⟨fun h => (nomatch h), fun ⟨p, h⟩ => nomatch h⟩
  rw [Report.passes, Bool.and_eq_true, hfault, List.isEmpty_iff]
  refine and_congr_right fun _ => ?_
  rw [List.eq_nil_iff_forall_not_mem]
  refine ⟨fun h check _ => h check, fun h check hmem => h check ?_ hmem⟩
  rw [report_compile] at hmem
  exact Checker.mem_checks_of_mem_failedChecks hmem

theorem Check.mem_ordered {check : Check} {checks : List Check} :
    check ∈ ordered checks ↔ check ∈ checks := by
  simp [ordered, mem_all]

namespace CommandLine

/-! ## Artifacts -/

/-- The line that shows an artifact. -/
def Artifact.line (e : Compiled D) : Artifact → String
  | tokens => s!"tokens: {listTokens e.tokens}\n"
  | postfixOrder => s!"postfix: {listTokens e.polish}\n"
  | tree =>
    match e.tree with
    | some t => s!"tree: {t.render}\n"
    | none => "tree: <none>\n"

/-- Every selected check passes on the expression, which has a tree. -/
def Passes (s : Settings) (e : Compiled D) : Prop :=
  (∃ p, e.compiler.dialect.parse e.source = .ok p) ∧
    ∀ check ∈ s.checks, check ∉ e.report.failedChecks

variable {files : String → File} {platform : Option String} {a : Arguments} {s : Settings}
  {bindings : List (String × Float)}

theorem passes_iff {c : Compiler D} {source : String}
    (hchecks : c.checker.checks = Check.ordered s.checks) :
    Passes s (c.compile source) ↔ (c.compile source).report.passes := by
  rw [Compiler.passes_compile_iff, Passes, hchecks]
  simp [Check.mem_ordered]

/-- The ways in which a run ends that has something to compile. -/
inductive Ends (checkOnly : Bool) (bindings : List (String × Float)) (e : Compiled numbers) :
    Except Failure String → Prop
  | refused (failure : Failure) (hcheck : e.check = .error failure) :
      Ends checkOnly bindings e (.error failure)
  | valid (tree : Tree) (hcheck : e.check = .ok tree) (honly : checkOnly) :
      Ends checkOnly bindings e (.ok "valid\n")
  | failed (tree : Tree) (failure : Failure) (hcheck : e.check = .ok tree)
      (hall : checkOnly = false)
      (hvalue : e.evaluate (OrderedMap.ofList bindings) = .error failure) :
      Ends checkOnly bindings e (.error failure)
  | value (tree : Tree) (v : Float) (hcheck : e.check = .ok tree) (hall : checkOnly = false)
      (hvalue : e.evaluate (OrderedMap.ofList bindings) = .ok v) :
      Ends checkOnly bindings e (.ok (Number.text v ++ "\n"))

end CommandLine

end Reckon
