import Reckon.Compiler
import Reckon.Proofs.Check.Diagnostics

/-!
# Compiling and checking

Compiling keeps the stages of parsing and checks the tree that parsing gives
(`Compiler.compile_of_parse`).  So no fault of a text is lost on the way: an expression is refused
with all that its report tells, and it has a tree when its report tells nothing.
-/

namespace Reckon

variable {D : Domain}

/-! ## Compiling follows parsing -/

namespace Compiler

variable {c : Compiler D} {source : String} {p : Parsed} {f : Fault}

/-- Compiling makes the same steps as parsing and stops at the same fault. -/
theorem compile_of_parse (c : Compiler D) (source : String) :
    (∃ p, c.dialect.parse source = .ok p ∧
      c.compile source = ⟨c, source, p.tokens, p.polish, some p.tree,
        c.checker.checkTree c.dialect source p.tree⟩) ∨
    ∃ f polish, c.dialect.parse source = .error f ∧
      c.compile source = ⟨c, source, c.dialect.tokens source, polish, none,
        c.faultReport source f⟩ := by
  unfold compile Dialect.parse
  cases hpolish : Polish.ofTokens c.dialect (c.dialect.tokens source) with
  | error f => exact .inr ⟨f, [], by simp [hpolish, bind, Except.bind], by simp [hpolish]⟩
  | ok polish =>
    cases htree : Tree.ofPolish polish with
    | error f =>
      refine .inr ⟨f, polish, ?_, by simp [hpolish, htree]⟩
      simp [hpolish, htree, bind, Except.bind]
    | ok tree =>
      refine .inl ⟨⟨c.dialect.tokens source, polish, tree⟩, ?_, by simp [hpolish, htree]⟩
      simp [hpolish, htree, bind, Except.bind, pure, Except.pure]

theorem compile_eq (h : c.dialect.parse source = .ok p) :
    c.compile source = ⟨c, source, p.tokens, p.polish, some p.tree,
      c.checker.checkTree c.dialect source p.tree⟩ := by
  rcases compile_of_parse c source with ⟨q, hq, he⟩ | ⟨f, polish, hf, -⟩
  · rw [h] at hq
    rw [he, Except.ok.inj hq]
  · rw [h] at hf
    cases hf

@[simp] theorem compiler_compile (c : Compiler D) (source : String) :
    (c.compile source).compiler = c := by
  rcases compile_of_parse c source with ⟨p, -, he⟩ | ⟨f, polish, -, he⟩ <;> rw [he]

@[simp] theorem source_compile (c : Compiler D) (source : String) :
    (c.compile source).source = source := by
  rcases compile_of_parse c source with ⟨p, -, he⟩ | ⟨f, polish, -, he⟩ <;> rw [he]

/-- Checking while compiling and checking a text are the same. -/
theorem report_compile (c : Compiler D) (source : String) :
    (c.compile source).report = c.checker.check c.dialect source := by
  unfold Checker.check
  rcases compile_of_parse c source with ⟨p, hp, he⟩ | ⟨f, polish, hf, he⟩
  · rw [hp, he]
  · rw [hf, he]
    rfl

theorem isSome_tree_compile (c : Compiler D) (source : String) :
    (c.compile source).tree.isSome ↔ ∃ p, c.dialect.parse source = .ok p := by
  rcases compile_of_parse c source with ⟨p, hp, he⟩ | ⟨f, polish, hf, he⟩
  · rw [hp, he]
    exact ⟨fun _ => ⟨p, rfl⟩, fun _ => rfl⟩
  · rw [hf, he]
    constructor
    · intro h
      cases h
    · rintro ⟨p, hp⟩
      cases hp

/-- A report that passes is one on a tree. -/
theorem isSome_tree_of_passes (h : (c.compile source).report.passes) :
    (c.compile source).tree.isSome := by
  rcases compile_of_parse c source with ⟨p, -, he⟩ | ⟨f, polish, -, he⟩
  · rw [he]
    rfl
  · rw [he] at h
    simp [Report.passes, faultReport] at h

end Compiler

/-! ## Refusals -/

namespace Compiled

variable {e : Compiled D}

theorem check_of_passes {tree : Tree} (h : e.report.passes) (htree : e.tree = some tree) :
    e.check = .ok tree := by
  rw [check, if_pos h, htree]

theorem check_of_not_passes (h : ¬ e.report.passes) :
    e.check = .error (.parse e.report.diagnostics e.source) := by
  rw [check, if_neg h]

end Compiled

namespace Compiler

variable {c : Compiler D} {source : String}

/-- An expression is accepted with its tree or refused with all that its report tells. -/
theorem check_compile (c : Compiler D) (source : String) :
    (∃ tree, (c.compile source).report.passes ∧ (c.compile source).tree = some tree ∧
      (c.compile source).check = .ok tree) ∨
    (¬ (c.compile source).report.passes ∧ (c.compile source).report.diagnostics ≠ [] ∧
      (c.compile source).check = .error (.parse (c.compile source).report.diagnostics source)) := by
  by_cases h : (c.compile source).report.passes
  · obtain ⟨tree, htree⟩ := Option.isSome_iff_exists.mp (isSome_tree_of_passes h)
    exact .inl ⟨tree, h, htree, Compiled.check_of_passes h htree⟩
  · refine .inr ⟨h, mt Report.passes_iff.mpr h, ?_⟩
    rw [Compiled.check_of_not_passes h, source_compile]

/-- An accepted expression is the tree of a text whose report passes. -/
theorem parse_of_check {tree : Tree} (h : (c.compile source).check = .ok tree) :
    (c.compile source).report.passes ∧ ∃ p, c.dialect.parse source = .ok p ∧ p.tree = tree ∧
      (c.compile source).report = c.checker.checkTree c.dialect source tree := by
  rcases check_compile c source with ⟨tree', hpasses, htree, hcheck⟩ | ⟨-, -, hcheck⟩
  · cases h.symm.trans hcheck
    refine ⟨hpasses, ?_⟩
    rcases compile_of_parse c source with ⟨p, hp, he⟩ | ⟨f, polish, -, he⟩
    · rw [he] at htree ⊢
      cases htree
      exact ⟨p, hp, rfl, rfl⟩
    · rw [he] at htree
      cases htree
  · cases h.symm.trans hcheck

/-- **No failure is swallowed.**  Compiling reports what checking the text reports and keeps the
stages of parsing, if it succeeds.  The report passes exactly if it tells nothing, and exactly then
the expression is accepted; else it is refused with all that the report tells.  So the error of an
accepted expression without tree, the only one without a code, never shows. -/
theorem compile_agrees (c : Compiler D) (source : String) :
    let e := c.compile source
    e.report = c.checker.check c.dialect source ∧
    (e.tree.isSome ↔ ∃ p, c.dialect.parse source = .ok p) ∧
    (∀ p, c.dialect.parse source = .ok p →
      e.tokens = p.tokens ∧ e.polish = p.polish ∧ e.tree = some p.tree) ∧
    (e.report.passes ↔ e.report.diagnostics = []) ∧
    (e.report.passes ↔ e.report.result = .ok ()) ∧
    (e.report.passes ↔ ∃ tree, e.check = .ok tree) ∧
    (∀ tree, e.check = .ok tree → e.tree = some tree) ∧
    (∀ failure, e.check = .error failure →
      failure = .parse e.report.diagnostics source ∧ e.report.diagnostics ≠ []) ∧
    ¬ (e.report.passes ∧ e.tree = none) ∧
    ∀ text, e.check ≠ .error (.parse [Diagnostic.plain "expression has no tree"] text) := by
  intro e
  have hresult : e.report.passes ↔ e.report.result = .ok () := by
    rw [Report.result_eq, Report.passes_iff]
    by_cases h : e.report.diagnostics = [] <;> simp [h]
  refine ⟨report_compile c source, isSome_tree_compile c source, ?_, Report.passes_iff, hresult, ?_⟩
  · intro p hp
    have he : e = _ := compile_eq hp
    rw [he]
    exact ⟨rfl, rfl, rfl⟩
  show (e.report.passes ↔ _) ∧ _
  rcases check_compile c source with ⟨tree, hpasses, htree, hcheck⟩ | ⟨hpasses, hne, hcheck⟩
  · refine ⟨⟨fun _ => ⟨tree, hcheck⟩, fun _ => hpasses⟩, ?_, ?_, ?_, ?_⟩
    · intro other hother
      rw [← Except.ok.inj (hcheck.symm.trans hother)]
      exact htree
    · intro failure hfailure
      cases hcheck.symm.trans hfailure
    · rintro ⟨-, hnone⟩
      cases htree.symm.trans hnone
    · intro text htext
      cases hcheck.symm.trans htext
  · refine ⟨⟨fun h => absurd h hpasses, ?_⟩, ?_, ?_, fun h => hpasses h.1, ?_⟩
    · rintro ⟨tree, htree⟩
      cases hcheck.symm.trans htree
    · intro tree htree
      cases hcheck.symm.trans htree
    · intro failure hfailure
      exact ⟨(Except.error.inj (hcheck.symm.trans hfailure)).symm, hne⟩
    · intro text htext
      have hplain : (c.compile source).report.diagnostics = [Diagnostic.plain _] :=
        (Failure.parse.inj (Except.error.inj (hcheck.symm.trans htext))).1
      obtain ⟨code, hcode⟩ := Report.code_of_mem_diagnostics (hplain ▸ List.mem_singleton.mpr rfl)
      cases hcode

end Compiler

end Reckon
