import Reckon.OrderedMap

/-!
# Laws of ordered maps

What many insertions or removals in a row do to a look-up, and what look-ups have to do with keys.
-/

namespace Reckon.OrderedMap

variable {α : Type} {m : OrderedMap α} {key : String}

/-- Of several pairs that are put in, the last one with a name counts. -/
theorem get?_foldl_insert (m : OrderedMap α) (pairs : List (String × α)) (key : String) :
    (pairs.foldl (fun m p => m.insert p.1 p.2) m).get? key =
      (pairs.reverse.lookup key).or (m.get? key) := by
  induction pairs generalizing m with
  | nil => rfl
  | cons p pairs ih =>
    have hlast : [p].lookup key = if key = p.1 then some p.2 else none := by
      by_cases h : key = p.1
      · rw [if_pos h, h]
        exact List.lookup_cons_self
      · simp [lookup_cons_ne h, h]
    rw [List.foldl_cons, ih, get?_insert, List.reverse_cons, List.lookup_append, hlast,
      Option.or_assoc]
    by_cases h : key = p.1 <;> simp [h]

theorem get?_ofList (pairs : List (String × α)) (key : String) :
    (ofList pairs).get? key = pairs.reverse.lookup key := by
  rw [ofList, get?_foldl_insert, get?_empty, Option.or_none]

theorem get?_foldl_erase (m : OrderedMap α) (names : List String) (key : String) :
    (names.foldl erase m).get? key = if key ∈ names then none else m.get? key := by
  induction names generalizing m with
  | nil => simp
  | cons name names ih =>
    rw [List.foldl_cons, ih, get?_erase]
    by_cases hmem : key ∈ names
    · simp [hmem]
    · by_cases hname : key = name <;> simp [hmem, hname]

theorem lookup_mapped {β : Type} (f : α → β) (entries : List (String × α)) (key : String) :
    (entries.map fun e => (e.1, f e.2)).lookup key = (entries.lookup key).map f := by
  induction entries with
  | nil => rfl
  | cons e rest ih =>
    rw [List.map_cons, List.lookup_cons, List.lookup_cons, ih]
    cases key == e.1 <;> rfl

/-- Among pairs with different names, a look-up finds each. -/
theorem lookup_of_mem {entries : List (String × α)} {a : α} (h : (entries.map (·.1)).Nodup)
    (hmem : (key, a) ∈ entries) : entries.lookup key = some a := by
  induction entries with
  | nil => cases hmem
  | cons e rest ih =>
    rw [List.map_cons, List.nodup_cons] at h
    rcases List.mem_cons.mp hmem with rfl | hmem
    · exact List.lookup_cons_self
    · have hne : key ≠ e.1 := by
        rintro rfl
        exact h.1 (List.mem_map_of_mem (f := (·.1)) hmem)
      rw [lookup_cons_ne hne, ih h.2 hmem]

/-- A look-up finds something just for the names of the pairs. -/
theorem isSome_lookup_iff {entries : List (String × α)} :
    (entries.lookup key).isSome ↔ key ∈ entries.map (·.1) := by
  simp only [List.lookup_isSome_iff, List.mem_map, beq_iff_eq]
  exact exists_congr fun p => and_congr_right fun _ => eq_comm

theorem lookup_eq_none_iff {entries : List (String × α)} :
    entries.lookup key = none ↔ key ∉ entries.map (·.1) := by
  rw [← isSome_lookup_iff, Option.not_isSome_iff_eq_none]

theorem isSome_get?_ofList {pairs : List (String × α)} :
    ((ofList pairs).get? key).isSome ↔ key ∈ pairs.map (·.1) := by
  rw [get?_ofList, isSome_lookup_iff, List.map_reverse, List.mem_reverse]

theorem get?_ofList_eq_none_iff {pairs : List (String × α)} :
    (ofList pairs).get? key = none ↔ key ∉ pairs.map (·.1) := by
  rw [← isSome_get?_ofList, Option.not_isSome_iff_eq_none]

/-- Of pairs with different names, each is found. -/
theorem get?_ofList_eq_some_iff {pairs : List (String × α)} {a : α}
    (h : (pairs.map (·.1)).Nodup) : (ofList pairs).get? key = some a ↔ (key, a) ∈ pairs := by
  have hreverse : (pairs.reverse.map (·.1)).Nodup :=
    ((List.reverse_perm pairs).map (·.1)).nodup_iff.mpr h
  have hfound : ∀ {b}, (key, b) ∈ pairs → (ofList pairs).get? key = some b := by
    intro b hb
    rw [get?_ofList]
    exact lookup_of_mem hreverse (List.mem_reverse.mpr hb)
  constructor
  · intro ha
    have hkey : key ∈ pairs.map (·.1) := isSome_get?_ofList.mp (by rw [ha]; rfl)
    obtain ⟨⟨_, b⟩, hb, rfl⟩ := List.mem_map.mp hkey
    rw [hfound hb] at ha
    exact Option.some.inj ha ▸ hb
  · exact hfound

theorem mem_keys : key ∈ m.keys ↔ (m.get? key).isSome :=
  isSome_lookup_iff.symm

end Reckon.OrderedMap
