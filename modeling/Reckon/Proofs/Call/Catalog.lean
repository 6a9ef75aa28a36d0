import Reckon.Call.Catalog
import Reckon.Proofs.Call.Contracts
import Reckon.Proofs.Except

/-!
# Catalogs that are built

A catalog that `Catalog.build` accepts can tell its names apart (`Catalog.Distinct`), so the
contract of a name is what its function or custom function declares
(`Catalog.Distinct.arity?_contracts`).
-/

namespace Reckon.Catalog

variable {D : Domain} {c catalog : Catalog D} {f : Callable D} {name : String}

/-! ## Names -/

/-- The names of functions and custom functions can be told apart, and every function can be
called. -/
structure Distinct (c : Catalog D) : Prop where
  nodup : c.declaredNames.Nodup
  callable : ∀ f ∈ c.functions, f.overloads ≠ []

theorem firstRepeated_eq_none_iff {earlier names : List String} :
    firstRepeated earlier names = none ↔ names.Nodup ∧ ∀ name ∈ names, name ∉ earlier := by
  induction names generalizing earlier with
  | nil => simp [firstRepeated]
  | cons name names ih =>
    unfold firstRepeated
    by_cases hname : name ∈ earlier
    · simp [hname]
    · rw [if_neg hname, ih, List.nodup_cons, List.forall_mem_cons]
      constructor
      · rintro ⟨hnodup, hfresh⟩
        refine ⟨⟨fun hmem => hfresh name hmem List.mem_cons_self, hnodup⟩, hname, ?_⟩
        exact fun other hother hmem => hfresh other hother (List.mem_cons_of_mem _ hmem)
      · rintro ⟨⟨hnew, hnodup⟩, -, hfresh⟩
        refine ⟨hnodup, fun other hother hmem => ?_⟩
        rcases List.mem_cons.mp hmem with rfl | hmem
        · exact hnew hother
        · exact hfresh other hother hmem

theorem checkTable_eq_ok_iff {earlier : List String} {table : List (Callable D)} :
    checkTable earlier table = .ok () ↔ (∀ f ∈ table, f.overloads ≠ []) ∧
      (table.map (·.name)).Nodup ∧ ∀ f ∈ table, f.name ∉ earlier := by
  induction table generalizing earlier with
  | nil => simp [checkTable]
  | cons f table ih =>
    unfold checkTable
    by_cases hempty : f.overloads = []
    · simp [hempty]
    · by_cases hname : f.name ∈ earlier
      · simp [hempty, hname]
      · rw [if_neg (by simpa using hempty), if_neg hname, ih]
        rw [List.forall_mem_cons, List.forall_mem_cons, List.map_cons, List.nodup_cons]
        simp only [List.mem_cons, not_or]
        constructor
        · rintro ⟨hcallable, hnodup, hfresh⟩
          refine ⟨⟨hempty, hcallable⟩, ⟨?_, hnodup⟩, hname, fun g hg => (hfresh g hg).2⟩
          rintro hmem
          obtain ⟨g, hg, hsame⟩ := List.mem_map.mp hmem
          exact (hfresh g hg).1 hsame
        · rintro ⟨⟨-, hcallable⟩, ⟨hnew, hnodup⟩, -, hfresh⟩
          refine ⟨hcallable, hnodup, fun g hg => ⟨fun hsame => hnew ?_, hfresh g hg⟩⟩
          exact List.mem_map.mpr ⟨g, hg, hsame⟩

/-- A catalog is accepted, as it is, if names do not clash and everything can be called. -/
theorem build_eq_ok_iff : c.build = .ok catalog ↔ catalog = c ∧ c.declaredNames.Nodup ∧
    (∀ f ∈ c.functions ++ c.operators ++ c.unaries, f.overloads ≠ []) ∧
    (c.functions.map (·.name)).Nodup ∧ (c.operators.map (·.name)).Nodup ∧
    (c.unaries.map (·.name)).Nodup := by
  unfold build
  constructor
  · intro h
    cases hnames : firstRepeated [] c.declaredNames with
    | some name =>
      rw [hnames] at h
      cases h
    | none =>
      rw [hnames] at h
      obtain ⟨_, hfunctions, h⟩ := exists_of_bind_eq_ok h
      obtain ⟨_, hoperators, h⟩ := exists_of_bind_eq_ok h
      obtain ⟨_, hunaries, h⟩ := exists_of_bind_eq_ok h
      have hfunctions := checkTable_eq_ok_iff.mp hfunctions
      have hoperators := checkTable_eq_ok_iff.mp hoperators
      have hunaries := checkTable_eq_ok_iff.mp hunaries
      refine ⟨(Except.ok.inj h).symm, (firstRepeated_eq_none_iff.mp hnames).1, ?_,
        hfunctions.2.1, hoperators.2.1, hunaries.2.1⟩
      simp only [List.forall_mem_append]
      exact ⟨⟨hfunctions.1, hoperators.1⟩, hunaries.1⟩
  · rintro ⟨rfl, hnames, hcallable, hfunctions, hoperators, hunaries⟩
    simp only [List.forall_mem_append] at hcallable
    obtain ⟨⟨hfunction, hoperator⟩, hunary⟩ := hcallable
    have hnames : firstRepeated [] catalog.declaredNames = none :=
      firstRepeated_eq_none_iff.mpr ⟨hnames, fun _ _ => List.not_mem_nil⟩
    rw [hnames, checkTable_eq_ok_iff.mpr ⟨hfunction, hfunctions, fun _ _ => List.not_mem_nil⟩,
      checkTable_eq_ok_iff.mpr ⟨hoperator, hoperators, fun _ _ => List.not_mem_nil⟩,
      checkTable_eq_ok_iff.mpr ⟨hunary, hunaries, fun _ _ => List.not_mem_nil⟩]
    rfl

/-- A catalog is accepted as it is. -/
theorem distinct_of_build (h : c.build = .ok catalog) : catalog = c ∧ c.Distinct := by
  obtain ⟨heq, hnames, hcallable, -⟩ := build_eq_ok_iff.mp h
  refine ⟨heq, hnames, fun f hf => hcallable f ?_⟩
  simp [hf]

theorem exists_mem_of_function? (h : c.function? name = some f) :
    f ∈ c.functions ∧ name ∈ f.names := by
  rw [function?, Option.or_eq_some_iff] at h
  rcases h with h | ⟨-, h⟩
  · have hname := List.find?_some h
    have hname : f.name = name := by simpa using hname
    exact ⟨List.mem_of_find?_eq_some h, by simp [Callable.names, hname]⟩
  · have hname := List.find?_some h
    have hname : name ∈ f.aliases := by simpa using hname
    exact ⟨List.mem_of_find?_eq_some h, List.mem_cons_of_mem f.name hname⟩

theorem function?_eq_none_iff : c.function? name = none ↔ ∀ f ∈ c.functions, name ∉ f.names := by
  simp only [function?, byName?, Option.or_eq_none_iff, List.find?_eq_none, beq_iff_eq,
    List.contains_iff_mem, Callable.names, List.mem_cons, not_or]
  constructor
  · exact fun h f hf => ⟨Ne.symm (h.1 f hf), h.2 f hf⟩
  · exact fun h => ⟨fun f hf => Ne.symm (h f hf).1, fun f hf => (h f hf).2⟩

/-- The names of functions, aliases and custom functions are the known ones. -/
theorem mem_functionNames : name ∈ c.functionNames ↔ name ∈ c.declaredNames := by
  simp only [functionNames, declaredNames, Callable.names, List.mem_append, List.mem_map,
    List.mem_flatMap, List.mem_cons]
  constructor
  · rintro ((⟨f, hf, rfl⟩ | ⟨f, hf, h⟩) | h)
    · exact .inl ⟨f, hf, .inl rfl⟩
    · exact .inl ⟨f, hf, .inr h⟩
    · exact .inr h
  · rintro (⟨f, hf, rfl | h⟩ | h)
    · exact .inl (.inl ⟨f, hf, rfl⟩)
    · exact .inl (.inr ⟨f, hf, h⟩)
    · exact .inr h

/-! ## Contracts -/

/-- What the catalog declares about a name: the arity of the function with this name or alias, or
the number of arguments of the custom function. -/
def arity? (c : Catalog D) (name : String) : Option Arity :=
  ((c.function? name).bind Callable.arity?).or
    (((OrderedMap.ofList c.custom).get? name).map Arity.fixed)

/-- The contracts of a function, for its name and each alias. -/
def contractsOf (f : Callable D) : List (String × Arity) :=
  match f.arity? with
  | none => []
  | some arity => f.names.map fun name => (name, arity)

/-- The contracts of the custom functions alone. -/
def customContracts (c : Catalog D) : Contracts :=
  { Contracts.empty with custom := OrderedMap.ofList c.custom }

theorem arity?_customContracts (c : Catalog D) (name : String) :
    c.customContracts.arity? name = ((OrderedMap.ofList c.custom).get? name).map .fixed := by
  simp [customContracts, Contracts.arity?, Contracts.empty, OrderedMap.get?_empty]

theorem contracts_eq (c : Catalog D) : c.contracts =
    (c.functions.flatMap contractsOf).foldl (fun c p => c.set p.1 p.2) c.customContracts := by
  have hcustom : c.custom.foldl (fun c p => c.setCustom p.1 p.2) Contracts.empty =
      c.customContracts :=
    List.foldl_hom (fun m => { Contracts.empty with custom := m }) fun _ _ => rfl
  have hadd : ∀ (contracts : Contracts) (f : Callable D), addContracts contracts f =
      (contractsOf f).foldl (fun c p => c.set p.1 p.2) contracts := by
    intro contracts f
    unfold addContracts contractsOf
    cases f.arity? with
    | none => rfl
    | some arity => simp only [List.foldl_map]
  rw [contracts, hcustom, List.foldl_flatMap]
  exact congrArg (fun step => c.functions.foldl step _) (funext fun m => funext (hadd m))

theorem map_fst_contractsOf (h : f.overloads ≠ []) : (contractsOf f).map (·.1) = f.names := by
  obtain ⟨arity, harity⟩ := Option.isSome_iff_exists.mp (Callable.isSome_arity? h)
  simp [contractsOf, harity, Function.comp_def]

theorem mem_contractsOf {a : Arity} :
    (name, a) ∈ contractsOf f ↔ f.arity? = some a ∧ name ∈ f.names := by
  unfold contractsOf
  cases f.arity? with
  | none => simp
  | some arity =>
    simp only [List.mem_map, Prod.mk.injEq, Option.some.injEq]
    constructor
    · rintro ⟨_, hname, rfl, rfl⟩
      exact ⟨rfl, hname⟩
    · rintro ⟨rfl, hname⟩
      exact ⟨name, hname, rfl, rfl⟩

namespace Distinct

theorem names_contractsOf (hc : c.Distinct) :
    (c.functions.flatMap contractsOf).map (·.1) = c.functions.flatMap Callable.names := by
  rw [List.map_flatMap, List.flatMap_def, List.flatMap_def]
  exact congrArg List.flatten
    (List.map_congr_left fun f hf => map_fst_contractsOf (hc.callable f hf))

/-- The contracts of functions are for different names. -/
theorem nodup_contractsOf (hc : c.Distinct) :
    ((c.functions.flatMap contractsOf).map (·.1)).Nodup := by
  rw [hc.names_contractsOf]
  exact (List.nodup_append.mp hc.nodup).1

/-- The contracts of functions are what they declare. -/
theorem lookup_contractsOf (hc : c.Distinct) (name : String) :
    (c.functions.flatMap contractsOf).lookup name = (c.function? name).bind Callable.arity? := by
  cases hf : c.function? name with
  | none =>
    rw [Option.bind_none, OrderedMap.lookup_eq_none_iff, hc.names_contractsOf]
    intro hname
    obtain ⟨f, hmem, hname⟩ := List.mem_flatMap.mp hname
    exact function?_eq_none_iff.mp hf f hmem hname
  | some f =>
    obtain ⟨hmem, hname⟩ := exists_mem_of_function? hf
    obtain ⟨a, ha⟩ := Option.isSome_iff_exists.mp (Callable.isSome_arity? (hc.callable f hmem))
    rw [Option.bind_some, ha]
    exact OrderedMap.lookup_of_mem hc.nodup_contractsOf
      (List.mem_flatMap.mpr ⟨f, hmem, mem_contractsOf.mpr ⟨ha, hname⟩⟩)

/-- **The contract of a name is what the catalog declares about it.** -/
theorem arity?_contracts (hc : c.Distinct) (name : String) :
    c.contracts.arity? name = c.arity? name := by
  have hproper : ∀ p ∈ c.functions.flatMap contractsOf, p.2.Proper := by
    intro p hp
    obtain ⟨f, -, hp⟩ := List.mem_flatMap.mp hp
    exact Callable.proper_of_arity? (mem_contractsOf.mp hp).1
  have hnew : ∀ p ∈ c.functions.flatMap contractsOf, c.customContracts.arity? p.1 = none := by
    intro p hp
    obtain ⟨f, hf, hp⟩ := List.mem_flatMap.mp hp
    have hname := List.mem_flatMap.mpr ⟨f, hf, (mem_contractsOf.mp hp).2⟩
    rw [arity?_customContracts, Option.map_eq_none_iff, OrderedMap.get?_ofList_eq_none_iff]
    exact fun hcustom => (List.nodup_append.mp hc.nodup).2.2 p.1 hname p.1 hcustom rfl
  rw [contracts_eq, Contracts.arity?_foldl_set hc.nodup_contractsOf hproper hnew,
    arity?_customContracts, hc.lookup_contractsOf, arity?]

/-- Whatever is known by name has a contract. -/
theorem isSome_arity?_iff (hc : c.Distinct) :
    (c.arity? name).isSome ↔ name ∈ c.functionNames := by
  have hfunction : ((c.function? name).bind Callable.arity?).isSome ↔
      name ∈ c.functions.flatMap Callable.names := by
    rw [← hc.lookup_contractsOf, ← hc.names_contractsOf, OrderedMap.isSome_lookup_iff]
  rw [arity?, Option.isSome_or, Option.isSome_map, Bool.or_eq_true, hfunction,
    OrderedMap.isSome_get?_ofList, mem_functionNames, declaredNames, List.mem_append]

end Distinct

end Reckon.Catalog
