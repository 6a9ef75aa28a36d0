import Reckon.Check.Report
import Reckon.Proofs.RoundTrip.Conversion
import Reckon.Proofs.RoundTrip.Parens

/-!
# Parsing what is written

Every expression, written with all its parentheses, is parsed into a tree that is written in the
same way, and the structural checks pass on it.
-/

namespace Reckon

open Polish

variable {t : Tree}

/-! ## Structural checks -/

/-- The checks that look at the shape of an expression only. -/
def Check.structural : List Check := [.parentheses, .operands, .emptyArguments, .separators]

theorem Tree.PassesBelow.operands (h : t.PassesBelow none) :
    (OperandUse.inspect .standard t).passes := by
  refine Verdicts.passes_ofTest.mpr fun u hu => ?_
  obtain ⟨v, hv, hnode⟩ := List.mem_filterMap.mp hu
  simpa using (h v hv).operand u hnode

theorem Tree.PassesBelow.emptyArguments (h : t.PassesBelow none) :
    (EmptyArguments.inspect t).passes := by
  refine Verdicts.passes_ofTest.mpr fun u hu => ?_
  obtain ⟨v, hv, rfl⟩ := List.mem_map.mp hu
  obtain ⟨hvisit, hk⟩ := mem_visitsOf.mp hv
  simpa using (h v hvisit).arguments hk

theorem Tree.PassesBelow.separators (h : t.PassesBelow none) :
    (SeparatorUse.inspect t).passes := by
  refine Verdicts.passes_ofTest.mpr fun u hu => ?_
  obtain ⟨v, hv, rfl⟩ := List.mem_map.mp hu
  obtain ⟨hvisit, hk⟩ := mem_visitsOf.mp hv
  exact (h v hvisit).separator hk

/-- A report of the structural checks alone. -/
theorem Checker.passes_structural {c : Checker} {source : String}
    (hc : c.checks = Check.structural) (hparens : (Paren.inspect .standard source).passes)
    (h : t.PassesBelow none) : (c.checkTree .standard source t).passes := by
  have hall : (c.checkTree .standard source t).failedChecks = [] := by
    refine List.filter_eq_nil_iff.mpr fun check _ => ?_
    cases check <;>
      simp [checkTree, checkText, ifSelected, hc, Check.structural, Report.fails, hparens,
        h.operands, h.emptyArguments, h.separators]
  rw [Report.passes, hall]
  rfl

/-! ## Parsing -/

/-- The text of an expression is parsed into a tree that renders it. -/
theorem Expr.parse_eq (e : Expr) :
    ∃ parsed, Dialect.standard.parse e.written = .ok parsed ∧ Renders e parsed.tree := by
  have htokens := Lexeme.tokens_text e.toList_written e.fitting_lexemes
  obtain ⟨s, t, ⟨used, hused, hrun⟩, hlands, ht⟩ := e.converts 0 start []
  rw [List.append_nil, List.append_nil] at hused
  rw [← hused, ← htokens] at hrun
  obtain ⟨polish, hpolish, hspells⟩ := (hlands.reads []).ofTokens_eq hrun
  refine ⟨⟨Dialect.standard.tokens e.written, polish, t⟩, ?_, ht⟩
  simp only [Dialect.parse, bind, Except.bind, hpolish, hspells]
  rfl

/-- **Writing and parsing.**  The text of an expression with all its parentheses is parsed into a
tree that is written as the same text, and the structural checks pass on it. -/
theorem Expr.parse_written (e : Expr) :
    ∃ d parsed, Dialect.build .standard = .ok d ∧ d.parse e.written = .ok parsed ∧
      parsed.tree.render = e.written ∧
      ∀ contracts variablePolicy functionPolicy,
        ((Checker.mk Check.structural contracts variablePolicy functionPolicy).check d
          e.written).passes := by
  obtain ⟨parsed, hparse, hrenders⟩ := e.parse_eq
  refine ⟨.standard, parsed, build_standard, hparse, ?_, fun contracts vars calls => ?_⟩
  · rw [Tree.render_eq_text, hrenders.text]
  · rw [Checker.check, hparse]
    exact Checker.passes_structural rfl e.balanced.passes (hrenders.passes none)

end Reckon
