import Reckon.Proofs.Check.Report
import Reckon.Proofs.Polish.Root
import Reckon.Proofs.Term.Faults
import Reckon.Proofs.Term.Kinds

/-!
# Operands that evaluation wants

The checks of operands and of empty arguments look at each node of a tree by itself
(`Tree.Complete`).  Evaluation takes its values from the operands of such nodes, so it comes upon no
placeholder, whatever else is wrong with the text.
-/

namespace Reckon

variable {D : Domain} {d : Dialect} {t : Tree} {parent : Option Token}

/-! ## Complete nodes -/

/-- Neither check finds an operand missing at the node. -/
structure Tree.Complete (d : Dialect) (t : Tree) : Prop where
  operands : ∀ u, OperandUse.ofNode? d t = some u → u.lack = none
  arguments : t.kind = .call → ∀ a ∈ t.arguments, ¬ a.isMissing

theorem EmptyArguments.not_isMissing_of_placesFrom {first : Nat} {ts : List Tree}
    (h : placesFrom first ts = []) : ∀ t ∈ ts, ¬ t.isMissing := by
  induction ts generalizing first with
  | nil => simp
  | cons t ts ih =>
    rw [placesFrom] at h
    split at h
    · cases h
    · rename_i ht
      exact List.forall_mem_cons.mpr ⟨ht, ih h⟩

/-- Every node of a tree that both checks pass is complete. -/
theorem Tree.complete_of_passes (hoperands : (OperandUse.inspect d t).passes)
    (harguments : (EmptyArguments.inspect t).passes) : ∀ v ∈ t.visits, v.tree.Complete d := by
  have huses := Verdicts.passes_ofTest.mp hoperands
  have hcalls := Verdicts.passes_ofTest.mp harguments
  intro v hv
  constructor
  · intro u hu
    exact Option.isNone_iff_eq_none.mp (huses u (List.mem_filterMap.mpr ⟨v, hv, hu⟩))
  · intro hk
    have hplaces := hcalls _ (List.mem_map_of_mem (mem_visitsOf.mpr ⟨hv, hk⟩))
    exact EmptyArguments.not_isMissing_of_placesFrom (List.isEmpty_iff.mp hplaces)

namespace Tree.Complete

variable {token : Token} {l r : Tree}

theorem of_operator (h : (node token l r).Complete d) (hk : token.kind = .operator) :
    ¬ l.isMissing ∧ ¬ r.isMissing := by
  have hlack := h.operands
  simp only [OperandUse.ofNode?, kind, Tree.token, hk, Option.some.injEq, forall_eq', left?, right?,
    OperandUse.isAbsent] at hlack
  cases hl : l.isMissing <;> cases hr : r.isMissing <;> simp [hl, hr] at hlack ⊢

theorem of_before (h : (node token l r).Complete d) (hk : token.kind = .unary)
    (hside : d.sideOf token.text = .before) : ¬ r.isMissing := by
  have hlack := h.operands
  intro hr
  simp [OperandUse.ofNode?, kind, Tree.token, hk, hside, right?, OperandUse.isAbsent, hr] at hlack

theorem of_after (h : (node token l r).Complete d) (hk : token.kind = .unary)
    (hside : d.sideOf token.text = .after) : ¬ l.isMissing := by
  have hlack := h.operands
  intro hl
  simp [OperandUse.ofNode?, kind, Tree.token, hk, hside, left?, OperandUse.isAbsent, hl] at hlack

/-- An operator without subtrees lacks its operands. -/
theorem not_leaf (h : (leaf token).Complete d) :
    token.kind ≠ .operator ∧ token.kind ≠ .unary := by
  have hlack := h.operands
  constructor
  · intro hk
    simp [OperandUse.ofNode?, kind, Tree.token, hk, left?, right?, OperandUse.isAbsent] at hlack
  · intro hk
    cases hside : d.sideOf token.text <;>
      simp [OperandUse.ofNode?, kind, Tree.token, hk, hside, left?, right?,
        OperandUse.isAbsent] at hlack

/-- What evaluation takes from a complete node is written. -/
theorem not_isMissing (h : t.Complete d) : ∀ u ∈ t.operands d, ¬ u.isMissing := by
  cases t with
  | leaf token => simp [Tree.operands]
  | node token l r =>
    rw [Tree.operands]
    cases hk : token.kind with
    | operator =>
      obtain ⟨hl, hr⟩ := h.of_operator hk
      simp [hl, hr]
    | unary =>
      cases hside : d.sideOf token.text with
      | before => simpa using h.of_before hk hside
      | after => simpa using h.of_after hk hside
    | call => exact h.arguments hk
    | _ => simp

/-- A complete node has as many operands as its sort of call wants. -/
theorem not_short {sort : CallSort} (h : t.Complete d) (hk : Term.callSort? t.kind = some sort) :
    ¬ (t.operands d).length < sort.wanted (t.operands d).length := by
  cases t with
  | leaf token =>
    obtain ⟨hop, hun⟩ := h.not_leaf
    have hk : Term.callSort? token.kind = some sort := hk
    cases hk' : token.kind <;> simp_all [Term.callSort?]
    subst hk
    simp [CallSort.wanted]
  | node token l r =>
    have hk : Term.callSort? token.kind = some sort := hk
    cases hk' : token.kind <;> simp_all [Term.callSort?]
    all_goals subst hk
    · simp [Tree.operands, hk', CallSort.wanted]
    · rw [Tree.operands, hk']
      cases d.sideOf token.text <;> simp [CallSort.wanted]
    · simp [CallSort.wanted]

end Tree.Complete

/-! ## Evaluation -/

theorem Tree.read_subset_of_mem_operands {u : Tree} (h : u ∈ t.operands d) :
    u.read d ⊆ t.read d := by
  intro v hv
  rw [read_eq d t]
  exact List.mem_append_left _ (List.mem_flatMap.mpr ⟨u, h, hv⟩)

namespace Typing

variable {s : Typing D} {owner : Option Token}

/-- A written tree whose nodes are complete is typed without missing an operand. -/
theorem missingOperand_not_mem_faults {term : Term} (ht : Term.IsOf d term t)
    (hm : ¬ t.isMissing) (h : ∀ u ∈ t.read d, u.Complete d) :
    .missingOperand owner ∉ faults (s.bind term) := by
  induction hn : t.size using Nat.strongRecOn generalizing t term with
  | _ n ih =>
    cases term with
    | literal token =>
      rw [bind]
      cases D.readLiteral token.text <;> simp [faults]
    | name token =>
      rw [bind]
      cases s.kindOf token.text <;> simp [faults]
    | absent owner => exact absurd (beq_of_eq ht.absent_kind) hm
    | stray token => simp [bind, faults]
    | alien token => simp [bind, faults]
    | call sort tree operands =>
      obtain ⟨hk, rfl, hoperands⟩ := ht.call_kind
      have hself := h tree (Tree.mem_read_self d tree)
      rw [faults_bind_call, List.mem_append, not_or]
      constructor
      · rw [faults_bindAll, List.mem_flatMap]
        rintro ⟨term, hterm, hfault⟩
        obtain ⟨u, hu, hof⟩ := Term.IsOf.exists_of_mem hoperands hterm
        have hsize := Tree.size_lt_of_mem_operands hu
        refine ih u.size (by omega) hof (hself.not_isMissing u hu) ?_ rfl hfault
        exact fun v hv => h v (Tree.read_subset_of_mem_operands hu hv)
      · unfold ownFaults
        rw [hoperands.length_eq, if_neg (hself.not_short hk)]
        cases s.bindAll operands with
        | error faults => simp
        | ok typed =>
          intro hfault
          rcases mem_faults_bindCall hfault with hfault | ⟨refusal, hfault⟩ <;> cases hfault

end Typing

/-- What goes wrong in computing a bound tree is the failure of a function. -/
theorem Term.code_of_compute {s : Typing D} {env : Environment D} {b : Typed D} {fault : EvalFault}
    (hs : s.kindOf = env.kindOf?) (hb : s.bind (Term.ofTree d t) = .ok b)
    (h : (Term.ofTree d t).compute env b.bound.callTable = .error fault) :
    fault.diagnostic.code = some .calculationFailed := by
  rw [Term.compute_eq_eval env hb] at h
  cases agrees_of_bind hs hb with
  | value v heval hmeaning hfailure =>
    rw [heval] at h
    cases h
  | fault c reason heval hmeaning hfailure =>
    rw [heval] at h
    rw [← Except.error.inj h]
    exact EvalFault.code_failed c reason

/-! ## Compiled expressions -/

theorem Report.passes_of_selected {α : Type} {c : Checker} {check : Check} {v : Unit → Verdicts α}
    (hc : check ∈ c.checks) (h : fails (c.ifSelected check v) = false) : (v ()).passes := by
  rw [Checker.ifSelected, if_pos (List.contains_iff_mem.mpr hc)] at h
  simpa [fails] using h

namespace Compiled

variable {c : Compiler D} {source : String} {tree : Tree}

/-- The tree of an accepted text is written at its root and, if both checks are run, complete
everywhere. -/
theorem complete_of_check (hoperands : .operands ∈ c.checker.checks)
    (harguments : .emptyArguments ∈ c.checker.checks)
    (hcheck : (c.compile source).check = .ok tree) :
    ¬ tree.isMissing ∧ ∀ u ∈ tree.read c.dialect, u.Complete c.dialect := by
  obtain ⟨hpasses, p, hp, rfl, hreport⟩ := Compiler.parse_of_check hcheck
  rw [hreport] at hpasses
  refine ⟨isMissing_of_parse hp, ?_⟩
  simp only [Report.passes, Bool.and_eq_true, List.isEmpty_iff,
    Report.failedChecks_eq_nil_iff] at hpasses
  obtain ⟨-, -, hfirst, hsecond, -⟩ := hpasses
  have hcomplete := Tree.complete_of_passes
    (Report.passes_of_selected (v := fun _ => OperandUse.inspect c.dialect p.tree) hoperands hfirst)
    (Report.passes_of_selected (v := fun _ => EmptyArguments.inspect p.tree) harguments hsecond)
  intro u hu
  have hvisit := (Tree.read_sublist_visits c.dialect p.tree none).1.subset hu
  obtain ⟨v, hv, rfl⟩ := List.mem_map.mp hvisit
  exact hcomplete v hv

/-- What typing tells of a complete tree is no missing operand. -/
theorem code_of_bind {kindOf : String → Option D.Kind} {faults : List TypeFault} {g : Diagnostic}
    (hoperands : .operands ∈ c.checker.checks) (harguments : .emptyArguments ∈ c.checker.checks)
    (hcheck : (c.compile source).check = .ok tree)
    (hb : (c.compile source).bind tree kindOf = .error faults)
    (hg : g ∈ faults.map (·.diagnostic)) : g.code ≠ some .missingOperandAtEvaluation := by
  intro hcode
  obtain ⟨f, hf, rfl⟩ := List.mem_map.mp hg
  obtain ⟨owner, rfl⟩ := TypeFault.code_eq_missingOperandAtEvaluation_iff.mp hcode
  obtain ⟨hm, hcomplete⟩ := complete_of_check hoperands harguments hcheck
  have hnone : .missingOperand owner ∉ Typing.faults
      ((⟨c.catalog, kindOf, c.lenient⟩ : Typing D).bind (Term.ofTree c.dialect tree)) :=
    Typing.missingOperand_not_mem_faults (Term.isOf_ofTree c.dialect tree) hm hcomplete
  unfold bind at hb
  rw [Compiler.compiler_compile] at hb
  rw [hb] at hnone
  exact hnone hf

/-- **No operand is missed.**  The root of a tree is never a placeholder.  If a text passes at least
the checks of operands and of empty arguments, then neither typing nor evaluation misses an operand,
whatever else goes wrong. -/
theorem no_operand_missed (c : Compiler D) (source : String) :
    (∀ tree, (c.compile source).tree = some tree → ¬ tree.isMissing) ∧
    (Check.operands ∈ c.checker.checks → Check.emptyArguments ∈ c.checker.checks →
      (c.compile source).report.passes →
      (∀ kindOf failure, (c.compile source).inferKind kindOf = .error failure →
        ∀ g ∈ failure.diagnostics, g.code ≠ some .missingOperandAtEvaluation) ∧
      ∀ env failure, (c.compile source).evaluate env = .error failure →
        ∀ g ∈ failure.diagnostics, g.code ≠ some .missingOperandAtEvaluation) := by
  constructor
  · intro tree htree
    rcases Compiler.compile_of_parse c source with ⟨p, hp, he⟩ | ⟨f, polish, -, he⟩
    · rw [he] at htree
      cases htree
      exact isMissing_of_parse hp
    · rw [he] at htree
      cases htree
  intro hoperands harguments hpasses
  obtain ⟨tree, htree⟩ := Option.isSome_iff_exists.mp (Compiler.isSome_tree_of_passes hpasses)
  have hcheck := check_of_passes hpasses htree
  constructor
  · intro kindOf failure hfailure g hg
    unfold inferKind at hfailure
    simp only [hcheck] at hfailure
    cases hb : (c.compile source).bind tree kindOf with
    | ok b => simp [hb] at hfailure
    | error faults =>
      simp only [hb] at hfailure
      rw [← Except.error.inj hfailure] at hg
      exact code_of_bind hoperands harguments hcheck hb hg
  · intro env failure hfailure g hg
    unfold evaluate at hfailure
    simp only [hcheck] at hfailure
    cases hb : (c.compile source).bind tree env.kindOf? with
    | error faults =>
      simp only [hb] at hfailure
      rw [← Except.error.inj hfailure] at hg
      exact code_of_bind hoperands harguments hcheck hb hg
    | ok b =>
      simp only [hb] at hfailure
      split at hfailure
      · rename_i fault hfault
        rw [← Except.error.inj hfailure] at hg
        rw [List.mem_singleton.mp hg, Term.code_of_compute rfl hb hfault]
        decide
      · cases hfailure

end Compiled

/-- A compiler for sums that runs the two checks only. -/
def Scalar.wantingCompiler : Compiler scalars :=
  Plan.build { catalog := sums, dialect := .standard, checks := [.operands, .emptyArguments] }

/-- In `2 + y! * f()` a variable has no value and a function is not declared, but no operand is
missed. -/
theorem Compiled.no_operand_missed_in_sum :
    (Scalar.wantingCompiler.compile "2 + y! * f()").report.passes ∧
    ∃ failure, (Scalar.wantingCompiler.compile "2 + y! * f()").evaluate Scalar.three =
        .error failure ∧ failure.diagnostics.length = 2 ∧
      ∀ g ∈ failure.diagnostics, g.code ≠ some .missingOperandAtEvaluation := by
  have he : ∃ e, Scalar.wantingCompiler.compile "2 + y! * f()" = e ∧ e.report.passes ∧
      ∃ failure, e.evaluate Scalar.three = .error failure ∧ failure.diagnostics.length = 2 :=
    ⟨_, by cbv, rfl, _, rfl, rfl⟩
  have hoperands : Check.operands ∈ Scalar.wantingCompiler.checker.checks := by decide
  have harguments : Check.emptyArguments ∈ Scalar.wantingCompiler.checker.checks := by decide
  obtain ⟨_, rfl, hpasses, failure, hfailure, hlength⟩ := he
  obtain ⟨-, hevaluate⟩ := (no_operand_missed _ _).2 hoperands harguments hpasses
  exact ⟨hpasses, failure, hfailure, hlength, hevaluate _ failure hfailure⟩

end Reckon
