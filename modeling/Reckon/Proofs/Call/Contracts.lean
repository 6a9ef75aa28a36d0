import Reckon.Proofs.Call.Arity
import Reckon.Proofs.OrderedMap
import Reckon.Settings.Basic

/-!
# Contracts by name

What setting, forgetting and configuring contracts does to the arity of a name.  A configured
contract replaces what was said about its name in any table (`ContractSpec.arity?_apply`).
-/

namespace Reckon

namespace Contracts

variable {c : Contracts} {a : Arity} {name key : String}

theorem arity?_eq_none_iff : c.arity? name = none ↔ c.custom.get? name = none ∧
    c.fixed.get? name = none ∧ c.least.get? name = none ∧ c.bounded.get? name = none := by
  simp [arity?]

/-- The names are those with an arity. -/
theorem mem_names_iff : name ∈ c.names ↔ (c.arity? name).isSome := by
  simp [names, arity?, OrderedMap.mem_keys]

/-- A name that no table holds gets the arity that it is set to. -/
theorem arity?_set (ha : a.Proper) (hnew : c.arity? name = none) (key : String) :
    (c.set name a).arity? key = if key = name then some a else c.arity? key := by
  obtain ⟨hcustom, hfixed, hleast, hbounded⟩ := arity?_eq_none_iff.mp hnew
  by_cases hkey : key = name
  · subst hkey
    cases a with
    | fixed count => simp [set, setFixed, arity?, OrderedMap.get?_insert, hcustom]
    | atLeast least => simp [set, setLeast, arity?, OrderedMap.get?_insert, hcustom, hfixed]
    | between least most =>
      have hle : least ≤ most := ha most rfl
      simp [set, setBounds, arity?, OrderedMap.get?_insert, hcustom, hfixed, hleast, hle]
  · cases a <;>
      simp [set, setFixed, setLeast, setBounds, arity?, OrderedMap.get?_insert, hkey]

/-- Different names that no table holds get the arities that they are set to. -/
theorem arity?_foldl_set {pairs : List (String × Arity)} (hnodup : (pairs.map (·.1)).Nodup)
    (hproper : ∀ p ∈ pairs, p.2.Proper) (hnew : ∀ p ∈ pairs, c.arity? p.1 = none) :
    (pairs.foldl (fun c p => c.set p.1 p.2) c).arity? key =
      (pairs.lookup key).or (c.arity? key) := by
  induction pairs generalizing c with
  | nil => rfl
  | cons p pairs ih =>
    obtain ⟨name, a⟩ := p
    rw [List.map_cons, List.nodup_cons] at hnodup
    obtain ⟨ha, hproper⟩ := List.forall_mem_cons.mp hproper
    obtain ⟨hname, hnew⟩ := List.forall_mem_cons.mp hnew
    have hset := arity?_set ha hname
    have hnew' : ∀ p ∈ pairs, (c.set name a).arity? p.1 = none := by
      intro p hp
      have hne : p.1 ≠ name := by
        rintro rfl
        exact hnodup.1 (List.mem_map_of_mem (f := (·.1)) hp)
      rw [hset, if_neg hne]
      exact hnew p hp
    rw [List.foldl_cons, ih hnodup.2 hproper hnew', hset]
    by_cases hkey : key = name
    · subst hkey
      simp [OrderedMap.lookup_eq_none_iff.mpr hnodup.1]
    · simp [OrderedMap.lookup_cons_ne hkey, hkey]

end Contracts

namespace ContractSpec

variable {s : ContractSpec} {name : String}

/-- What a specification says about a name: the first of its tables that holds the name decides.
Bounds in the wrong order allow the lower one only. -/
def arity? (s : ContractSpec) (name : String) : Option Arity :=
  (((OrderedMap.ofList s.custom).get? name).map Arity.fixed).or <|
    (((OrderedMap.ofList s.fixed).get? name).map Arity.fixed).or <|
      (((OrderedMap.ofList s.least).get? name).map Arity.atLeast).or <|
        ((OrderedMap.ofList s.bounded).get? name).map fun b => Arity.between b.1 (max b.1 b.2)

/-- Bounds in order. -/
def bounds (b : Nat × Nat) : Nat × Nat := (b.1, max b.2 b.1)

/-- The tables after all names of the specification are forgotten and its own pairs put in. -/
theorem apply_eq (s : ContractSpec) (c : Contracts) : s.apply c =
    ⟨s.custom.foldl (fun m p => m.insert p.1 p.2) (s.names.foldl OrderedMap.erase c.custom),
      s.fixed.foldl (fun m p => m.insert p.1 p.2) (s.names.foldl OrderedMap.erase c.fixed),
      s.least.foldl (fun m p => m.insert p.1 p.2) (s.names.foldl OrderedMap.erase c.least),
      (s.bounded.map fun p => (p.1, bounds p.2)).foldl
        (fun m p => m.insert p.1 p.2) (s.names.foldl OrderedMap.erase c.bounded)⟩ := by
  have hforget : ∀ (names : List String) (c : Contracts), names.foldl Contracts.forget c =
      ⟨names.foldl OrderedMap.erase c.custom, names.foldl OrderedMap.erase c.fixed,
        names.foldl OrderedMap.erase c.least, names.foldl OrderedMap.erase c.bounded⟩ := by
    intro names
    induction names with
    | nil => exact fun c => rfl
    | cons name names ih => exact fun c => ih (c.forget name)
  have hcustom : ∀ c : Contracts, s.custom.foldl (fun c p => c.setCustom p.1 p.2) c =
      { c with custom := s.custom.foldl (fun m p => m.insert p.1 p.2) c.custom } :=
    fun c => List.foldl_hom (fun m => { c with custom := m }) fun _ _ => rfl
  have hfixed : ∀ c : Contracts, s.fixed.foldl (fun c p => c.setFixed p.1 p.2) c =
      { c with fixed := s.fixed.foldl (fun m p => m.insert p.1 p.2) c.fixed } :=
    fun c => List.foldl_hom (fun m => { c with fixed := m }) fun _ _ => rfl
  have hleast : ∀ c : Contracts, s.least.foldl (fun c p => c.setLeast p.1 p.2) c =
      { c with least := s.least.foldl (fun m p => m.insert p.1 p.2) c.least } :=
    fun c => List.foldl_hom (fun m => { c with least := m }) fun _ _ => rfl
  have hbounded : ∀ c : Contracts, s.bounded.foldl (fun c p => c.setBounds p.1 p.2.1 p.2.2) c =
      { c with bounded := s.bounded.foldl (fun m p => m.insert p.1 (bounds p.2)) c.bounded } :=
    fun c => List.foldl_hom (fun m => { c with bounded := m }) fun _ _ => rfl
  simp only [apply, hforget, hcustom, hfixed, hleast, hbounded, List.foldl_map]

/-- A specification decides on the names that it holds. -/
theorem mem_names_iff : name ∈ s.names ↔ (s.arity? name).isSome := by
  simp only [names, arity?, List.mem_append, Option.isSome_or, Option.isSome_map, Bool.or_eq_true,
    OrderedMap.isSome_get?_ofList, or_assoc]

/-- **A configured contract replaces every other one.**  The specification decides on the names that
it holds, whatever tables held them before, and leaves the others alone. -/
theorem arity?_apply (s : ContractSpec) (c : Contracts) (name : String) :
    (s.apply c).arity? name = (s.arity? name).or (c.arity? name) := by
  have hbounds : (fun b => Arity.between b.1 b.2) ∘ bounds =
      fun b : Nat × Nat => Arity.between b.1 (max b.1 b.2) :=
    funext fun b => by simp [bounds, Nat.max_comm]
  by_cases hname : name ∈ s.names
  · have hsome := mem_names_iff.mp hname
    rw [Option.or_of_isSome hsome]
    simp only [apply_eq, Contracts.arity?, arity?, OrderedMap.get?_foldl_insert,
      OrderedMap.get?_ofList, OrderedMap.get?_foldl_erase, ← List.map_reverse,
      OrderedMap.lookup_mapped, if_pos hname, Option.or_none, Option.map_map, hbounds]
  · have hnone : s.arity? name = none := by
      rwa [mem_names_iff, Option.not_isSome_iff_eq_none] at hname
    rw [hnone, Option.none_or]
    simp only [arity?, Option.or_eq_none_iff, Option.map_eq_none_iff,
      OrderedMap.get?_ofList] at hnone
    obtain ⟨hcustom, hfixed, hleast, hbounded⟩ := hnone
    simp only [apply_eq, Contracts.arity?, OrderedMap.get?_foldl_insert,
      OrderedMap.get?_foldl_erase, ← List.map_reverse, OrderedMap.lookup_mapped, if_neg hname,
      hcustom, hfixed, hleast, hbounded, Option.map_none, Option.none_or]

end ContractSpec

end Reckon
