import Reckon.Proofs.Plan
import Reckon.Proofs.Term.Kinds
import Reckon.Proofs.Term.Reading

/-!
# Counted calls

The check of argument counts agrees with overload resolution: what it refuses for a contract of the
catalog, no overload takes (`ArgumentCount.invalid_is_unbindable`).
-/

namespace Reckon

variable {D : Domain}

/-! ## Resolution -/

/-- Unless some overload fits, the refusal says that none does. -/
theorem Callable.noMatch_or_accepts (c : Callable D) (arguments : List (Argument D.Kind))
    (lenient : Bool) :
    (∃ refusal, c.resolve arguments lenient = .error refusal ∧ refusal.isNoMatch) ∨
    ∃ o ∈ c.overloads, o.accepts lenient (arguments.map (·.kind)) := by
  cases hfit : firstFitting lenient (arguments.map (·.kind)) 0 c.overloads with
  | none => exact .inl ⟨_, by rw [resolve, hfit], rfl⟩
  | some choice =>
    obtain ⟨hmem, haccepts⟩ := firstFitting_accepts hfit
    exact .inr ⟨choice.overload, hmem, haccepts⟩

namespace Catalog

variable {catalog : Catalog D} {f : Callable D} {name : String}

/-- A call that is not refused for its shape has as many arguments as the contract allows. -/
theorem Distinct.contract_accepts (hc : catalog.Distinct) (hf : catalog.function? name = some f)
    {arguments : List (Argument D.Kind)} {lenient : Bool}
    (h : ∀ refusal, f.resolve arguments lenient = .error refusal → ¬ refusal.isNoMatch) :
    ∃ a, catalog.contracts.arity? name = some a ∧ a.accepts arguments.length := by
  rcases f.noMatch_or_accepts arguments lenient with ⟨refusal, hrefusal, hmatch⟩ | ⟨o, ho, haccepts⟩
  · exact absurd hmatch (h refusal hrefusal)
  · have hne : f.overloads ≠ [] := List.ne_nil_of_mem ho
    obtain ⟨a, ha⟩ := Option.isSome_iff_exists.mp (Callable.isSome_arity? hne)
    refine ⟨a, ?_, ?_⟩
    · rw [hc.arity?_contracts, arity?, hf, Option.bind_some, ha, Option.some_or]
    · simpa using Callable.accepts_of_arity? ha ho haccepts

end Catalog

namespace Typing

variable {s : Typing D}

/-- Where no overload fits, neither as the kinds are nor by standing for others, none is chosen. -/
theorem choose_noMatch {c : Callable D} {arguments : List (Argument D.Kind)}
    (h : ∀ lenient, ∃ refusal, c.resolve arguments lenient = .error refusal ∧ refusal.isNoMatch) :
    ∃ refusal, s.choose c arguments = .error refusal ∧ refusal.isNoMatch := by
  obtain ⟨strict, hstrict, hmatch⟩ := h false
  rw [choose, hstrict]
  cases hlenient : s.lenient with
  | false => exact ⟨strict, by simp, hmatch⟩
  | true =>
    obtain ⟨refusal, hrefusal, hmatch'⟩ := h true
    exact ⟨refusal, by simp [hmatch, hrefusal], hmatch'⟩

/-- A call is never short of operands as such; its fault is one of theirs or its own. -/
theorem bind_function (tree : Tree) (operands : List Term) :
    s.bind (.call .function tree operands) =
      (s.bindAll operands).bind (s.bindCall .function tree operands) := by
  rw [bind]
  cases s.bindAll operands <;> simp [CallSort.wanted, Except.bind]

end Typing

/-! ## Counts -/

namespace ArgumentCount

/-- What is counted of a call. -/
def ofCall (contracts : Contracts) (t : Tree) : ArgumentCount :=
  ⟨t.token, t.arguments.length, contracts.arity? t.token.text⟩

/-- A call is read with as many operands as it is counted with. -/
theorem exists_operands (d : Dialect) {t : Tree} (h : t.kind = .call) : ∃ operands,
    Term.ofTree d t = .call .function t operands ∧ operands.length = t.arguments.length := by
  obtain ⟨operands, hterm⟩ : ∃ operands, Term.ofTree d t = .call .function t operands := by
    cases t with
    | leaf token =>
      have hk : token.kind = .call := h
      exact ⟨[], by simp only [Term.ofTree, Term.reading, Term.Reading.ofWhole, Term.ofLeaf, hk]⟩
    | node token l r =>
      have hk : token.kind = .call := h
      exact ⟨if r.isMissing then [] else (Term.reading d (some token) r).links,
        by simp only [Term.ofTree, Term.reading, Term.Reading.ofWhole, hk]⟩
  refine ⟨operands, hterm, ?_⟩
  obtain ⟨-, -, hoperands⟩ := Term.IsOf.call_kind (hterm ▸ Term.isOf_ofTree d t)
  rw [hoperands.length_eq]
  cases t with
  | leaf token => rfl
  | node token l r =>
    have hk : token.kind = .call := h
    rw [Tree.operands, hk]

/-- Without configured contracts, the contracts are those of the catalog. -/
theorem arity?_of_unconfigured {catalog : Catalog D} {settings : Option Settings} {p : Plan D}
    (hc : catalog.Distinct) (hp : Plan.Follows catalog settings p)
    (hnone : ∀ s ∈ settings, s.contracts.names = []) (name : String) :
    p.build.checker.contracts.arity? name = catalog.contracts.arity? name := by
  have hsettings : (settings.bind fun s => s.contracts.arity? name) = none := by
    cases settings with
    | none => rfl
    | some s =>
      rw [Option.bind_some, ← Option.not_isSome_iff_eq_none, ← ContractSpec.mem_names_iff,
        hnone s rfl]
      exact List.not_mem_nil
  show p.allContracts.arity? name = _
  rw [Plan.arity?_allContracts hc hp, hsettings, Option.none_or, hc.arity?_contracts]

/-- A call that is counted wrong by the contracts of the catalog, and whose operands are typed, has
no definition or none of its overloads fits. -/
theorem bindCall_of_invalid {s : Typing D} (hc : s.catalog.Distinct) {t : Tree}
    (h : ¬ (ofCall s.catalog.contracts t).isValid) {operands : List Term} {typed : List (Typed D)}
    (hcount : operands.length = t.arguments.length) (htyped : typed.length = operands.length) :
    s.catalog.function? t.token.text = none ∧
        s.bindCall .function t operands typed = .error [.undeclared .function t.token] ∨
      ∃ refusal, refusal.isNoMatch ∧
        s.bindCall .function t operands typed = .error [.refused refusal t.token.span] := by
  have hlookup : s.catalog.callable? .function t.token.text =
      s.catalog.function? t.token.text := rfl
  rw [Typing.bindCall, hlookup]
  cases hf : s.catalog.function? t.token.text with
  | none => exact .inl ⟨rfl, rfl⟩
  | some f =>
    right
    have hlength : (Typing.argumentsOf operands typed).length = t.arguments.length := by
      simp [Typing.argumentsOf, htyped, hcount]
    have hnomatch : ∀ lenient, ∃ refusal,
        f.resolve (Typing.argumentsOf operands typed) lenient = .error refusal ∧
          refusal.isNoMatch := by
      intro lenient
      by_contra hnot
      obtain ⟨a, ha, haccepts⟩ := hc.contract_accepts hf fun refusal hrefusal hmatch =>
        hnot ⟨refusal, hrefusal, hmatch⟩
      apply h
      rw [hlength] at haccepts
      simp [isValid, ofCall, ha, haccepts]
    obtain ⟨refusal, hchoose, hmatch⟩ := Typing.choose_noMatch (s := s) hnomatch
    exact ⟨refusal, hmatch, by simp only [hchoose]⟩

/-- **The check of argument counts refuses no call that an overload would take.**  A call that is
not refused for its shape has a contract in the catalog that allows its number of arguments.  So,
if no contract is configured, a call that the check finds wrong cannot be bound: unless its operands
are faulty themselves, it has no definition or none of its overloads fits. -/
theorem invalid_is_unbindable {raw catalog : Catalog D} (hcatalog : raw.build = .ok catalog) :
    (∀ name f, catalog.function? name = some f →
      ∀ (arguments : List (Argument D.Kind)) (lenient : Bool),
        (∀ refusal, f.resolve arguments lenient = .error refusal → ¬ refusal.isNoMatch) →
        ∃ a, catalog.contracts.arity? name = some a ∧ a.accepts arguments.length) ∧
    ∀ settings p, Plan.Follows catalog settings p →
      (∀ s ∈ settings, s.contracts.names = []) →
      ∀ tree, ∀ v ∈ tree.visitsOf .call,
        ofCall p.build.checker.contracts v.tree ∈
          (inspect p.build.checker.contracts tree).invalid →
        ∀ (d : Dialect) (kindOf : String → Option D.Kind), ∃ operands,
          let s : Typing D := ⟨p.build.catalog, kindOf, p.build.lenient⟩
          Term.ofTree d v.tree = .call .function v.tree operands ∧
          (∀ faults, s.bindAll operands = .error faults →
            s.bind (Term.ofTree d v.tree) = .error faults) ∧
          ∀ typed, s.bindAll operands = .ok typed →
            p.build.catalog.function? v.tree.token.text = none ∧
                s.bind (Term.ofTree d v.tree) = .error [.undeclared .function v.tree.token] ∨
              ∃ refusal, refusal.isNoMatch ∧
                s.bind (Term.ofTree d v.tree) = .error [.refused refusal v.tree.token.span] := by
  obtain ⟨rfl, hc⟩ := Catalog.distinct_of_build hcatalog
  refine ⟨fun name f hf arguments lenient h => hc.contract_accepts hf h, ?_⟩
  intro settings p hp hnone tree v hv hinvalid d kindOf
  obtain ⟨hplan, -, -⟩ := hp.invariant
  have hcall : v.tree.kind = .call := by simpa using (List.mem_filter.mp hv).2
  obtain ⟨operands, hterm, hcount⟩ := exists_operands d hcall
  refine ⟨operands, hterm, ?_⟩
  rw [hterm, Typing.bind_function]
  constructor
  · intro faults hfaults
    rw [hfaults]
    rfl
  · intro typed htyped
    have hinvalid : ¬ (ofCall p.build.catalog.contracts v.tree).isValid := by
      have hcontracts : ofCall p.build.catalog.contracts v.tree =
          ofCall p.build.checker.contracts v.tree := by
        show ofCall p.catalog.contracts v.tree = _
        simp only [ofCall, hplan, arity?_of_unconfigured hc hp hnone]
      rw [hcontracts]
      simpa using (List.mem_filter.mp hinvalid).2
    have hdistinct : p.build.catalog.Distinct := by
      show p.catalog.Distinct
      rwa [hplan]
    rw [htyped]
    exact bindCall_of_invalid (s := ⟨p.build.catalog, kindOf, p.build.lenient⟩) hdistinct hinvalid
      hcount (Typing.bindAll_ok htyped).length_eq.symm

/-- In `total(1)` the sum has one argument too few. -/
theorem invalid_total_is_unbindable :
    let p : Plan scalars := { catalog := Scalar.totals, dialect := .standard, lenient := true }
    let s : Typing scalars := ⟨Scalar.totals, fun _ => none, true⟩
    Scalar.totals.build = .ok Scalar.totals ∧ Plan.Follows Scalar.totals none p ∧
    ∃ parsed, Dialect.standard.parse "total(1)" = .ok parsed ∧
      ∃ v ∈ parsed.tree.visitsOf .call, ofCall p.build.checker.contracts v.tree ∈
          (inspect p.build.checker.contracts parsed.tree).invalid ∧
        ∃ refusal, refusal.isNoMatch ∧
          s.bind (Term.ofTree .standard v.tree) = .error [.refused refusal v.tree.token.span] := by
  intro p s
  have hbuild : Scalar.totals.build = .ok Scalar.totals := by rfl
  have hfollows : Plan.Follows Scalar.totals none p := .leniently true (.start .standard)
  have hparsed : ∃ parsed, Dialect.standard.parse "total(1)" = .ok parsed ∧
      ∃ v ∈ parsed.tree.visitsOf .call, v.tree.token.text = "total" ∧
        v.tree.arguments.length = 1 ∧
        ∀ operands, Term.ofTree .standard v.tree = .call .function v.tree operands →
          ∃ typed, s.bindAll operands = .ok typed := by
    refine ⟨_, by cbv, _, .head _, rfl, rfl, ?_⟩
    intro operands hoperands
    cases hoperands
    exact ⟨_, rfl⟩
  obtain ⟨parsed, hparsed, v, hv, htext, hcount, htyped⟩ := hparsed
  have harity : p.build.checker.contracts.arity? "total" = some (.between 2 3) := by decide
  have hinvalid : ofCall p.build.checker.contracts v.tree ∈
      (inspect p.build.checker.contracts parsed.tree).invalid :=
    List.mem_filter.mpr ⟨List.mem_map_of_mem hv,
      by simp [isValid, ofCall, htext, hcount, harity, Arity.accepts]⟩
  refine ⟨hbuild, hfollows, parsed, hparsed, v, hv, hinvalid, ?_⟩
  obtain ⟨operands, hterm, -, hbind⟩ := (invalid_is_unbindable hbuild).2 none p hfollows
    (by rintro _ ⟨⟩) parsed.tree v hv hinvalid .standard fun _ => none
  obtain ⟨typed, htyped⟩ := htyped operands hterm
  rcases hbind typed htyped with ⟨hnone, -⟩ | hrefused
  · rw [htext] at hnone
    cases hnone
  · exact hrefused

end ArgumentCount

end Reckon
