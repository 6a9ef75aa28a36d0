import Reckon.Proofs.Call.Catalog
import Reckon.Proofs.Check.Names
import Reckon.Proofs.Check.Report
import Reckon.Proofs.Standard
import Reckon.Proofs.Term.Meaning

/-!
# Plans

The plans that a catalog can lead to (`Plan.Follows`), and what the compilers made from them know:
a function is known exactly if it has a contract (`Plan.known_iff_declared`).
-/

namespace Reckon

variable {D : Domain}

namespace Plan

/-- The plans that follow from a catalog by any steps in any order, each with the settings that
were applied last. -/
inductive Follows (catalog : Catalog D) : Option Settings → Plan D → Prop where
  | start (dialect : Dialect) : Follows catalog none { catalog := catalog, dialect := dialect }
  | configure {settings p p'} (s : Settings) (h : Follows catalog settings p)
      (hp' : p.configure s = .ok p') : Follows catalog (some s) p'
  | speaking {settings p} (dialect : Dialect) (h : Follows catalog settings p) :
      Follows catalog settings { p with dialect := dialect }
  | checking {settings p} (checks : List Check) (h : Follows catalog settings p) :
      Follows catalog settings { p with checks := checks }
  | declaring {settings p} (names : List String) (h : Follows catalog settings p) :
      Follows catalog settings { p with variablePolicy := p.variablePolicy.knowing names }
  | leniently {settings p} (lenient : Bool) (h : Follows catalog settings p) :
      Follows catalog settings { p with lenient := lenient }

variable {catalog : Catalog D} {settings : Option Settings} {p : Plan D} {name : String}

/-- Settings replace all but the catalog, and know no function by themselves. -/
theorem eq_of_configure {p' : Plan D} {s : Settings} (h : p.configure s = .ok p') :
    p'.catalog = p.catalog ∧ p'.contracts = some s.contracts ∧ p'.functionPolicy.known = [] := by
  obtain ⟨dialect, -, h⟩ := exists_of_bind_eq_ok h
  obtain ⟨variablePolicy, -, h⟩ := exists_of_bind_eq_ok h
  obtain ⟨functionPolicy, hpolicy, h⟩ := exists_of_bind_eq_ok h
  have hknown : functionPolicy.known = [] := by
    unfold Settings.functionPolicy at hpolicy
    cases hexemptions : s.ignoreFunctions.exemptions with
    | error e =>
      rw [hexemptions] at hpolicy
      cases hpolicy
    | ok exemptions =>
      rw [hexemptions] at hpolicy
      rw [← Except.ok.inj hpolicy]
  rw [← Except.ok.inj h]
  exact ⟨rfl, rfl, hknown⟩

/-- Whatever the steps, a plan keeps its catalog, has the contracts of the last settings, and
leaves it to the catalog to say which functions are known. -/
theorem Follows.invariant (h : Follows catalog settings p) : p.catalog = catalog ∧
    p.contracts = settings.map (·.contracts) ∧ p.functionPolicy.known = [] := by
  induction h with
  | start dialect => exact ⟨rfl, rfl, rfl⟩
  | configure s h hp' ih =>
    obtain ⟨hcatalog, hcontracts, hknown⟩ := eq_of_configure hp'
    exact ⟨hcatalog.trans ih.1, hcontracts, hknown⟩
  | speaking dialect h ih => exact ih
  | checking checks h ih => exact ih
  | declaring names h ih => exact ih
  | leniently lenient h ih => exact ih

/-- The settings decide first, then the catalog. -/
theorem arity?_allContracts (hc : catalog.Distinct) (h : Follows catalog settings p) :
    p.allContracts.arity? name =
      (settings.bind fun s => s.contracts.arity? name).or (catalog.arity? name) := by
  obtain ⟨hcatalog, hcontracts, -⟩ := h.invariant
  rw [allContracts, hcontracts, hcatalog, ← hc.arity?_contracts]
  cases settings with
  | none => rfl
  | some s => exact ContractSpec.arity?_apply _ _ _

/-- A function is known just if it has a contract. -/
theorem isKnown_build (hc : catalog.Distinct) (h : Follows catalog settings p) :
    p.build.checker.functionPolicy.isKnown name ↔
      (p.build.checker.contracts.arity? name).isSome := by
  obtain ⟨hcatalog, -, hknown⟩ := h.invariant
  have hmem : p.build.checker.functionPolicy.isKnown name ↔
      name ∈ catalog.functionNames ∨ name ∈ p.allContracts.names := by
    simp only [NamePolicy.isKnown, build, NamePolicy.knowing, hknown, hcatalog, List.nil_append,
      List.contains_iff_mem, List.mem_append]
  rw [hmem, Contracts.mem_names_iff, ← hc.isSome_arity?_iff]
  show _ ↔ (p.allContracts.arity? name).isSome
  rw [arity?_allContracts hc h, Option.isSome_or, Bool.or_eq_true]
  exact or_iff_right_of_imp .inr

/-! ## Reports -/

/-- What is counted are calls of the tree, by the contracts of the compiler. -/
theorem expected_of_mem_argumentCounts {c : Compiler D} {source : String}
    {counts : Verdicts ArgumentCount} {call : ArgumentCount}
    (h : (c.compile source).report.argumentCounts = some counts)
    (hcall : call ∈ counts.valid ∨ call ∈ counts.invalid) :
    call.expected = c.checker.contracts.arity? call.call.text ∧
      (call ∈ counts.valid → call.isValid) := by
  rw [Compiler.report_compile] at h
  obtain ⟨q, -, rfl⟩ := Checker.argumentCounts_check h
  refine ⟨?_, fun hvalid => (List.mem_filter.mp hvalid).2⟩
  simp only [ArgumentCount.inspect, Verdicts.ofTest, List.mem_filter, ← and_or_left] at hcall
  obtain ⟨v, -, rfl⟩ := List.mem_map.mp hcall.1
  rfl

/-- Uses of functions that are found wrong are uses of unknown names. -/
theorem not_isKnown_of_mem_functionNames {c : Compiler D} {source : String}
    {names : Verdicts NameUse} {use : NameUse}
    (h : (c.compile source).report.functionNames = some names) (huse : use ∈ names.invalid) :
    ¬ c.checker.functionPolicy.isKnown use.token.text := by
  rw [Compiler.report_compile] at h
  obtain ⟨q, -, rfl⟩ := Checker.functionNames_check h
  obtain ⟨v, -, rfl, hfresh⟩ := NameUse.of_mem_invalid huse
  exact hfresh

/-- **Known functions are the functions with a contract.**  In every compiler, the contract of a
name is what the settings say about it or, if they do not hold the name, what the catalog declares;
and a function is known just if its name has a contract.  So no call whose arguments are counted
and found in order has an unknown name, and no call with a known name lacks an arity. -/
theorem known_iff_declared {raw : Catalog D} (hcatalog : raw.build = .ok catalog)
    (h : Follows catalog settings p) :
    (∀ name, p.build.checker.contracts.arity? name =
      (settings.bind fun s => s.contracts.arity? name).or (catalog.arity? name)) ∧
    (∀ name, p.build.checker.functionPolicy.isKnown name ↔
      (p.build.checker.contracts.arity? name).isSome) ∧
    ∀ source counts, (p.build.compile source).report.argumentCounts = some counts →
      (∀ call ∈ counts.invalid,
        call.expected = none ↔ ¬ p.build.checker.functionPolicy.isKnown call.call.text) ∧
      ∀ names, (p.build.compile source).report.functionNames = some names →
        ∀ call ∈ counts.valid, ∀ use ∈ names.invalid, use.token.text ≠ call.call.text := by
  have hc : catalog.Distinct := by
    obtain ⟨rfl, hc⟩ := Catalog.distinct_of_build hcatalog
    exact hc
  refine ⟨fun name => arity?_allContracts hc h, fun name => isKnown_build hc h, ?_⟩
  intro source counts hcounts
  constructor
  · intro call hcall
    rw [isKnown_build hc h, (expected_of_mem_argumentCounts hcounts (.inr hcall)).1,
      Option.not_isSome_iff_eq_none]
  · intro names hnames call hcall use huse htext
    obtain ⟨hexpected, hvalid⟩ := expected_of_mem_argumentCounts hcounts (.inl hcall)
    have hsome : call.expected.isSome := by
      cases he : call.expected with
      | none =>
        have hvalid := hvalid hcall
        rw [ArgumentCount.isValid, he] at hvalid
        cases hvalid
      | some a => rfl
    apply not_isKnown_of_mem_functionNames hnames huse
    rw [htext, isKnown_build hc h, ← hexpected]
    exact hsome

end Plan

/-! ## Totals -/

namespace Scalar

/-- A function with two names, of two or three integers, and a custom function. -/
def totals : Catalog scalars where
  functions :=
    [{ name := "sum"
       aliases := ["total"]
       overloads :=
        [integerOverload 2 fun is => .ok is.sum, integerOverload 3 fun is => .ok is.sum] }]
  operators := []
  unaries := []
  custom := [("pair", 2)]

/-- Contracts for the custom function, for the second name, twice, and for a name that the catalog
does not hold. -/
def totalSettings : Settings where
  contracts :=
    { fixed := [("total", 4)]
      least := [("pair", 1)]
      bounded := [("total", (1, 2)), ("mean", (3, 1))] }

end Scalar

/-- The contracts of two tables replace those of two others, for one name of a function only. -/
theorem Plan.known_in_totals : ∃ p, Scalar.totals.build = .ok Scalar.totals ∧
    Follows Scalar.totals (some Scalar.totalSettings) p ∧
    (["sum", "total", "pair", "mean", "f"].map p.build.checker.contracts.arity? =
      [some (.between 2 3), some (.fixed 4), some (.atLeast 1), some (.between 3 3), none]) ∧
    p.build.checker.functionPolicy.isKnown "mean" ∧
    ¬ p.build.checker.functionPolicy.isKnown "f" := by
  have hp : ∃ p, Plan.configure { catalog := Scalar.totals, dialect := .standard }
      Scalar.totalSettings = .ok p := ⟨_, rfl⟩
  obtain ⟨p, hp⟩ := hp
  have hbuild : Scalar.totals.build = .ok Scalar.totals := by rfl
  have hfollows := Follows.configure _ (.start .standard) hp
  obtain ⟨harity, hknown, -⟩ := known_iff_declared hbuild hfollows
  refine ⟨p, hbuild, hfollows, ?_, ?_, ?_⟩
  · rw [funext harity]
    decide
  · rw [hknown, harity]
    decide
  · rw [hknown, harity]
    decide

end Reckon
