import Mathlib.Data.List.Nodup
import Mathlib.Data.List.Pairwise
import Mathlib.Data.List.Perm.Basic
import Reckon.Proofs.Call.Catalog
import Reckon.Scalar

/-!
# Catalogs as they are declared

Declarations make a catalog if their names do not clash and all callables can be called
(`Declaration.Consistent`).  What a name then stands for is what declares it, in whatever order that
is done (`Catalog.found_as_declared`).
-/

namespace Reckon

variable {D : Domain} {ds ds' : List (Declaration D)} {c catalog : Catalog D} {f g : Callable D}
variable {sort : CallSort} {name : String} {count : Nat} {a : Arity}

/-! ## Declarations -/

namespace Declaration

/-- The callable that is declared, of whatever sort. -/
def callable? : Declaration D → Option (Callable D)
  | callable _ f => some f
  | custom .. => none

/-- The names under which a function is declared. -/
def calledBy : Declaration D → List String
  | callable .function f => f.names
  | callable .operator _ | callable .unary _ => []
  | custom name _ => [name]

/-- No name of a sort is declared twice, and every callable has an overload. -/
structure Consistent (ds : List (Declaration D)) : Prop where
  functions : (ds.flatMap calledBy).Nodup
  tables : ∀ sort, ((ds.filterMap (·.ofSort? sort)).map (·.name)).Nodup
  callable : ∀ x ∈ ds, ∀ f ∈ x.callable?, f.overloads ≠ []

theorem Consistent.of_perm (h : Consistent ds) (hperm : ds.Perm ds') : Consistent ds' where
  functions := (hperm.flatMap fun _ _ => .refl _).nodup_iff.mp h.functions
  tables sort := ((hperm.filterMap _).map _).nodup_iff.mp (h.tables sort)
  callable x hx := h.callable x (hperm.mem_iff.mpr hx)

theorem mem_filterMap_ofSort? : f ∈ ds.filterMap (·.ofSort? sort) ↔ .callable sort f ∈ ds := by
  rw [List.mem_filterMap]
  constructor
  · rintro ⟨x, hx, hf⟩
    cases x with
    | custom name count => cases hf
    | callable s g =>
      by_cases hs : s = sort
      · subst hs
        rw [ofSort?, if_pos rfl] at hf
        exact Option.some.inj hf ▸ hx
      · rw [ofSort?, if_neg hs] at hf
        cases hf
  · intro hf
    exact ⟨_, hf, if_pos rfl⟩

theorem mem_filterMap_custom? : (name, count) ∈ ds.filterMap (·.custom?) ↔
    .custom name count ∈ ds := by
  rw [List.mem_filterMap]
  constructor
  · rintro ⟨x, hx, hf⟩
    cases x with
    | callable s g => cases hf
    | custom => cases hf; exact hx
  · intro hf
    exact ⟨_, hf, rfl⟩

end Declaration

/-! ## Look-up -/

namespace Catalog

theorem byName?_eq_some_iff {table : List (Callable D)} (h : (table.map (·.name)).Nodup) :
    byName? table name = some f ↔ f ∈ table ∧ f.name = name := by
  unfold byName?
  constructor
  · intro hf
    exact ⟨List.mem_of_find?_eq_some hf, by simpa using List.find?_some hf⟩
  · rintro ⟨hf, rfl⟩
    induction table with
    | nil => cases hf
    | cons g table ih =>
      rw [List.map_cons, List.nodup_cons] at h
      rcases List.mem_cons.mp hf with rfl | hf
      · simp
      · have hne : g.name ≠ f.name := by
          intro hsame
          exact h.1 (List.mem_map.mpr ⟨f, hf, hsame.symm⟩)
        rw [List.find?_cons_of_neg (by simpa using hne)]
        exact ih h.2 hf

/-- The names of functions and custom functions are listed once each. -/
theorem perm_functionNames (c : Catalog D) : c.functionNames.Perm c.declaredNames :=
  (List.map_append_flatMap_perm c.functions (·.name) (·.aliases)).append_right _

namespace Distinct

/-- Different functions have no name together. -/
theorem eq_of_mem_names (hc : c.Distinct) (hf : f ∈ c.functions) (hg : g ∈ c.functions)
    (hname : name ∈ f.names) (hname' : name ∈ g.names) : f = g := by
  obtain ⟨-, hdisjoint⟩ := List.nodup_flatMap.mp (List.nodup_append.mp hc.nodup).1
  by_contra hne
  have hsymm : Std.Symm (Function.onFun List.Disjoint (Callable.names (D := D))) :=
    ⟨fun _ _ h _ hb ha => h ha hb⟩
  exact hdisjoint.forall hf hg hne hname hname'

theorem function?_eq_some_iff (hc : c.Distinct) :
    c.function? name = some f ↔ f ∈ c.functions ∧ name ∈ f.names := by
  constructor
  · exact exists_mem_of_function?
  · rintro ⟨hf, hname⟩
    cases hfound : c.function? name with
    | none => exact absurd hname (function?_eq_none_iff.mp hfound f hf)
    | some g =>
      obtain ⟨hg, hname'⟩ := exists_mem_of_function? hfound
      rw [hc.eq_of_mem_names hg hf hname' hname]

/-- No function has the name of a custom one. -/
theorem function?_of_custom (hc : c.Distinct) (h : (name, count) ∈ c.custom) :
    c.function? name = none := by
  rw [function?_eq_none_iff]
  intro f hf hname
  have hfunction := List.mem_flatMap.mpr ⟨f, hf, hname⟩
  have hcustom : name ∈ c.custom.map (·.1) := List.mem_map.mpr ⟨(name, count), h, rfl⟩
  exact (List.nodup_append.mp hc.nodup).2.2 name hfunction name hcustom rfl

theorem arity?_contracts_eq_some_iff (hc : c.Distinct) : c.contracts.arity? name = some a ↔
    (∃ f ∈ c.functions, name ∈ f.names ∧ f.arity? = some a) ∨
      ∃ count, (name, count) ∈ c.custom ∧ a = .fixed count := by
  have hcustom : (c.custom.map (·.1)).Nodup := (List.nodup_append.mp hc.nodup).2.1
  rw [hc.arity?_contracts, arity?, Option.or_eq_some_iff, Option.bind_eq_some_iff]
  constructor
  · rintro (⟨f, hf, ha⟩ | ⟨-, ha⟩)
    · obtain ⟨hf, hname⟩ := exists_mem_of_function? hf
      exact .inl ⟨f, hf, hname, ha⟩
    · obtain ⟨count, hcount, rfl⟩ := Option.map_eq_some_iff.mp ha
      exact .inr ⟨count, (OrderedMap.get?_ofList_eq_some_iff hcustom).mp hcount, rfl⟩
  · rintro (⟨f, hf, hname, ha⟩ | ⟨count, hcount, rfl⟩)
    · exact .inl ⟨f, hc.function?_eq_some_iff.mpr ⟨hf, hname⟩, ha⟩
    · rw [hc.function?_of_custom hcount, (OrderedMap.get?_ofList_eq_some_iff hcustom).mpr hcount]
      exact .inr ⟨rfl, rfl⟩

end Distinct

/-! ## Building -/

open Declaration

theorem forall_mem_callables_ofDeclarations {P : Callable D → Prop} :
    (∀ f ∈ (ofDeclarations ds).functions ++ (ofDeclarations ds).operators ++
      (ofDeclarations ds).unaries, P f) ↔ ∀ x ∈ ds, ∀ f ∈ x.callable?, P f := by
  simp only [ofDeclarations, List.mem_append, mem_filterMap_ofSort?]
  constructor
  · intro h x hx f hf
    cases x with
    | custom name count => cases hf
    | callable sort g =>
      rw [← Option.some.inj hf]
      cases sort with
      | function => exact h g (.inl (.inl hx))
      | operator => exact h g (.inl (.inr hx))
      | unary => exact h g (.inr hx)
  · rintro h f ((hf | hf) | hf)
    · exact h _ hf f rfl
    · exact h _ hf f rfl
    · exact h _ hf f rfl

/-- The names of functions in the catalog are those that are declared. -/
theorem perm_declaredNames (ds : List (Declaration D)) :
    (ofDeclarations ds).declaredNames.Perm (ds.flatMap calledBy) := by
  unfold declaredNames ofDeclarations
  induction ds with
  | nil => exact .nil
  | cons x ds ih =>
    cases x with
    | custom name count => exact List.perm_middle.trans (ih.cons name)
    | callable sort f =>
      cases sort with
      | function =>
        have hsplit := ih.append_left f.names
        rw [← List.append_assoc] at hsplit
        exact hsplit
      | operator => exact ih
      | unary => exact ih

theorem build_ofDeclarations_iff : (ofDeclarations ds).build = .ok catalog ↔
    catalog = ofDeclarations ds ∧ Consistent ds := by
  rw [build_eq_ok_iff, (perm_declaredNames ds).nodup_iff, forall_mem_callables_ofDeclarations]
  constructor
  · rintro ⟨heq, hnames, hcallable, hfunctions, hoperators, hunaries⟩
    refine ⟨heq, hnames, ?_, hcallable⟩
    intro sort
    cases sort with
    | function => exact hfunctions
    | operator => exact hoperators
    | unary => exact hunaries
  · rintro ⟨heq, h⟩
    exact ⟨heq, h.functions, h.callable, h.tables .function, h.tables .operator, h.tables .unary⟩

/-! ## What is found -/

section Built

variable (h : (ofDeclarations ds).build = .ok catalog)

include h

theorem callable?_function_iff : catalog.callable? .function name = some f ↔
    .callable .function f ∈ ds ∧ name ∈ f.names := by
  obtain ⟨rfl, hc⟩ := distinct_of_build h
  show (ofDeclarations ds).function? name = some f ↔ _
  rw [hc.function?_eq_some_iff, ofDeclarations, mem_filterMap_ofSort?]

theorem callable?_operator_iff (hsort : sort ≠ .function) :
    catalog.callable? sort name = some f ↔ .callable sort f ∈ ds ∧ f.name = name := by
  obtain ⟨rfl, hds⟩ := build_ofDeclarations_iff.mp h
  have hfound : byName? (ds.filterMap (·.ofSort? sort)) name = some f ↔
      .callable sort f ∈ ds ∧ f.name = name := by
    rw [byName?_eq_some_iff (hds.tables sort), mem_filterMap_ofSort?]
  cases sort with
  | function => exact absurd rfl hsort
  | operator => exact hfound
  | unary => exact hfound

theorem arity?_contracts_iff : catalog.contracts.arity? name = some a ↔
    (∃ f, .callable .function f ∈ ds ∧ name ∈ f.names ∧ f.arity? = some a) ∨
      ∃ count, .custom name count ∈ ds ∧ a = .fixed count := by
  obtain ⟨rfl, hc⟩ := distinct_of_build h
  rw [hc.arity?_contracts_eq_some_iff]
  simp only [ofDeclarations, mem_filterMap_ofSort?, mem_filterMap_custom?]

/-- The order of declarations does not matter. -/
theorem exists_build_of_perm (hperm : ds.Perm ds') :
    ∃ catalog', (ofDeclarations ds').build = .ok catalog' ∧
      (∀ sort name, catalog'.callable? sort name = catalog.callable? sort name) ∧
      ∀ name, catalog'.contracts.arity? name = catalog.contracts.arity? name := by
  obtain ⟨-, hds⟩ := build_ofDeclarations_iff.mp h
  have h' := build_ofDeclarations_iff.mpr ⟨rfl, hds.of_perm hperm⟩
  refine ⟨_, h', ?_, ?_⟩
  · intro sort name
    apply Option.ext
    intro f
    by_cases hsort : sort = .function
    · rw [hsort, callable?_function_iff h', callable?_function_iff h, hperm.mem_iff]
    · rw [callable?_operator_iff h' hsort, callable?_operator_iff h hsort, hperm.mem_iff]
  · intro name
    apply Option.ext
    intro a
    simp only [arity?_contracts_iff h', arity?_contracts_iff h, hperm.mem_iff]

end Built

/-- **Catalogs are as they are declared.**  Declarations are accepted just if they are consistent.
Then a function is found by its name and its aliases, an operator by its name among those of its
sort, and a custom function not at all; every name of a function is listed once; and the contract of
a name is the one that is declared with it.  The order of declarations does not matter. -/
theorem found_as_declared (ds : List (Declaration D)) :
    ((∃ catalog, (ofDeclarations ds).build = .ok catalog) ↔ Consistent ds) ∧
    ∀ catalog, (ofDeclarations ds).build = .ok catalog →
      (∀ name f, catalog.callable? .function name = some f ↔
        .callable .function f ∈ ds ∧ name ∈ f.names) ∧
      (∀ name count, .custom name count ∈ ds → catalog.callable? .function name = none) ∧
      (∀ sort, sort ≠ .function → ∀ name f, catalog.callable? sort name = some f ↔
        .callable sort f ∈ ds ∧ f.name = name) ∧
      (catalog.functionNames.Perm (ds.flatMap calledBy) ∧ catalog.functionNames.Nodup) ∧
      (∀ f, .callable .function f ∈ ds → ∃ arity, f.arity? = some arity ∧
        ∀ name ∈ f.names, catalog.contracts.arity? name = some arity) ∧
      (∀ name count, .custom name count ∈ ds →
        catalog.contracts.arity? name = some (.fixed count)) ∧
      ∀ ds', ds.Perm ds' → ∃ catalog', (ofDeclarations ds').build = .ok catalog' ∧
        (∀ sort name, catalog'.callable? sort name = catalog.callable? sort name) ∧
        ∀ name, catalog'.contracts.arity? name = catalog.contracts.arity? name := by
  refine ⟨⟨?_, ?_⟩, ?_⟩
  · rintro ⟨catalog, h⟩
    exact (build_ofDeclarations_iff.mp h).2
  · intro hds
    exact ⟨_, build_ofDeclarations_iff.mpr ⟨rfl, hds⟩⟩
  · intro catalog h
    obtain ⟨rfl, hds⟩ := build_ofDeclarations_iff.mp h
    have hnames := (perm_functionNames _).trans (perm_declaredNames ds)
    refine ⟨fun name f => callable?_function_iff h, ?_,
      fun sort hsort name f => callable?_operator_iff h hsort,
      ⟨hnames, hnames.nodup_iff.mpr hds.functions⟩, ?_, ?_, fun ds' => exists_build_of_perm h⟩
    · intro name count hcustom
      exact (distinct_of_build h).2.function?_of_custom (mem_filterMap_custom?.mpr hcustom)
    · intro f hf
      obtain ⟨arity, harity⟩ := Option.isSome_iff_exists.mp
        (Callable.isSome_arity? (hds.callable _ hf f rfl))
      refine ⟨arity, harity, fun name hname => ?_⟩
      exact (arity?_contracts_iff h).mpr (.inl ⟨f, hf, hname, harity⟩)
    · intro name count hcustom
      exact (arity?_contracts_iff h).mpr (.inr ⟨count, hcustom, rfl⟩)

/-- Two names for a function of no arguments. -/
def nothingTwice : Callable scalars where
  name := "zero"
  aliases := ["nil"]
  overloads := [{ inputs := .nullary, output := ScalarKind.int, run := fun _ _ => .ok (.int 0) }]

/-- An operator may be called like a function, but a custom function not like an alias. -/
theorem found_as_declared_of_alias :
    (∃ catalog, (ofDeclarations [.custom "pair" 2, .callable .operator nothingTwice,
        .callable .function nothingTwice]).build = .ok catalog ∧
      catalog.callable? .function "nil" = some nothingTwice ∧
      catalog.callable? .operator "nil" ≠ some nothingTwice ∧
      catalog.contracts.arity? "nil" = some (.fixed 0) ∧
      catalog.contracts.arity? "pair" = some (.fixed 2)) ∧
    ¬ ∃ catalog, (ofDeclarations [.custom "nil" 2,
      .callable .function nothingTwice]).build = .ok catalog := by
  obtain ⟨haccepted, hfound⟩ := found_as_declared [.custom "pair" 2,
    .callable .operator nothingTwice, .callable .function nothingTwice]
  obtain ⟨hrefused, -⟩ := found_as_declared [.custom "nil" 2, .callable .function nothingTwice]
  refine ⟨?_, fun h => absurd (hrefused.mp h).functions (by decide)⟩
  obtain ⟨catalog, h⟩ := haccepted.mpr
    ⟨by decide, fun sort => by cases sort <;> decide, by simp [Declaration.callable?, nothingTwice]⟩
  obtain ⟨hfunction, -, hoperator, -, harity, hcustom, -⟩ := hfound catalog h
  refine ⟨catalog, h, (hfunction _ _).mpr ⟨by simp, by decide⟩, ?_, ?_, hcustom _ _ (by simp)⟩
  · intro hnil
    exact absurd ((hoperator .operator (by decide) _ _).mp hnil).2 (by decide)
  · obtain ⟨_, ha, harity⟩ := harity nothingTwice (by simp)
    rw [harity "nil" (by decide), ← ha]
    rfl

end Catalog

end Reckon
