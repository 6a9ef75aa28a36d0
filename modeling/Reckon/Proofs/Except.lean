import Mathlib.Data.List.Forall2

/-!
# Steps in a row

What comes out of steps that may fail, one after another or one for each item of a list.
-/

namespace Reckon

variable {ε α β : Type} {x : Except ε α} {f : α → Except ε β}

/-- What comes out of steps in a row comes out of the last one. -/
theorem exists_of_bind_eq_ok {b : β} (h : x >>= f = .ok b) : ∃ a, x = .ok a ∧ f a = .ok b := by
  cases x with
  | error e => cases h
  | ok a => exact ⟨a, rfl, h⟩

theorem mapError_eq_ok_iff {ε' : Type} {g : ε → ε'} {a : α} :
    x.mapError g = .ok a ↔ x = .ok a := by
  cases x <;> simp [Except.mapError]

theorem mapError_eq_error_iff {ε' : Type} {g : ε → ε'} {e' : ε'} :
    x.mapError g = .error e' ↔ ∃ e, x = .error e ∧ g e = e' := by
  cases x <;> simp [Except.mapError]

section

variable {g : α → Option β} {as : List α}

theorem mapM_eq_some_iff {bs : List β} :
    as.mapM g = some bs ↔ bs.length = as.length ∧ ∀ p ∈ as.zip bs, g p.1 = some p.2 := by
  induction as generalizing bs with
  | nil => cases bs <;> simp
  | cons a as ih =>
    rw [List.mapM_cons]
    constructor
    · intro h
      obtain ⟨b, hb, h⟩ := Option.bind_eq_some_iff.mp h
      obtain ⟨bs', hbs, h⟩ := Option.bind_eq_some_iff.mp h
      obtain rfl := Option.some.inj h
      obtain ⟨hlength, hall⟩ := ih.mp hbs
      exact ⟨congrArg (· + 1) hlength, List.forall_mem_cons.mpr ⟨hb, hall⟩⟩
    · rintro ⟨hlength, hall⟩
      cases bs with
      | nil => cases hlength
      | cons b bs =>
        obtain ⟨hb, hall⟩ := List.forall_mem_cons.mp hall
        rw [hb, ih.mpr ⟨Nat.succ.inj hlength, hall⟩]
        rfl

theorem exists_of_mapM_eq_none (h : as.mapM g = none) : ∃ a ∈ as, g a = none := by
  induction as with
  | nil => cases h
  | cons a as ih =>
    rw [List.mapM_cons] at h
    cases ha : g a with
    | none => exact ⟨a, List.mem_cons_self, ha⟩
    | some b =>
      cases has : as.mapM g with
      | none =>
        obtain ⟨a', hmem, ha'⟩ := ih has
        exact ⟨a', List.mem_cons_of_mem a hmem, ha'⟩
      | some bs =>
        rw [ha, has] at h
        cases h

/-- An item of a list has what comes of it. -/
theorem exists_of_mapM_eq_some {bs : List β} (h : as.mapM g = some bs) {a : α} (ha : a ∈ as) :
    ∃ b, g a = some b := by
  obtain ⟨hlength, hall⟩ := mapM_eq_some_iff.mp h
  obtain ⟨i, hi, rfl⟩ := List.mem_iff_getElem.mp ha
  have hmem : (as[i], bs[i]) ∈ as.zip bs := by
    rw [List.mem_iff_getElem]
    exact ⟨i, by simp [hlength, hi], List.getElem_zip⟩
  exact ⟨bs[i], hall _ hmem⟩

end

end Reckon
