import Mathlib.Data.List.Forall2
import Reckon.Call.Inputs

/-!
# Shapes of calls

What it means that kinds of arguments fit a shape (`Inputs.Fits`), said by how they divide into the
parts of the shape.  `Inputs.accepts` takes the ends off one after the other; it decides whether
there is such a division (`Inputs.accepts_iff_fits`).
-/

namespace Reckon.Inputs

variable {κ : Type}

/-! ## Fitting -/

/-- A kind fits a set: it is a member or, if `lenient`, may stand for a member. -/
def FitsSet (assignable : κ → κ → Bool) (lenient : Bool) (set : List κ) (kind : κ) : Prop :=
  kind ∈ set ∨ lenient ∧ ∃ target ∈ set, assignable kind target

/-- The kinds at an end: one that fits if the end is declared, and none if it is not. -/
inductive FitsEnd (fits : List κ → κ → Prop) : Option (List κ) → List κ → Prop
  | undeclared : FitsEnd fits none []
  | declared {set : List κ} {kind : κ} (h : fits set kind) : FitsEnd fits (some set) [kind]

/-- Kinds fit a shape: none at all, one for each position, or a middle between the ends. -/
inductive Fits (fits : List κ → κ → Prop) : Inputs κ → List κ → Prop
  | nullary : Fits fits nullary []
  | fixed {positions : List (List κ)} {kinds : List κ} (h : List.Forall₂ fits positions kinds) :
      Fits fits (fixed positions) kinds
  | variadic {v : Variadic κ} {first middle last : List κ} (hfirst : FitsEnd fits v.first first)
      (hlast : FitsEnd fits v.last last) (hleast : v.least ≤ middle.length)
      (hmiddle : ∀ kind ∈ middle, fits v.middle kind) :
      Fits fits (variadic v) (first ++ middle ++ last)

/-! ## Taking ends off -/

variable {test : List κ → κ → Bool} {set : Option (List κ)} {kinds rest : List κ}

/-- An end is at most one kind, so it does not matter from which side it is read. -/
theorem FitsEnd.reverse_eq {fits : List κ → κ → Prop} (h : FitsEnd fits set kinds) :
    kinds.reverse = kinds := by
  cases h <;> rfl

theorem takeEnd_eq_some_iff : takeEnd test set kinds = some rest ↔
    ∃ front, FitsEnd (fun set kind => test set kind) set front ∧ kinds = front ++ rest := by
  constructor
  · intro h
    cases set with
    | none => exact ⟨[], .undeclared, Option.some.inj h⟩
    | some set =>
      cases kinds with
      | nil => cases h
      | cons kind kinds =>
        rw [takeEnd] at h
        split at h
        · rename_i hfits
          exact ⟨[kind], .declared hfits, congrArg (kind :: ·) (Option.some.inj h)⟩
        · cases h
  · rintro ⟨front, hfront, rfl⟩
    cases hfront with
    | undeclared => rfl
    | declared hfits => exact if_pos hfits

/-- Taking an end off the reversed kinds takes it off their back. -/
theorem takeEnd_reverse_eq_some_iff {middle : List κ} :
    (takeEnd test set kinds.reverse).map List.reverse = some middle ↔
      ∃ back, FitsEnd (fun set kind => test set kind) set back ∧ kinds = middle ++ back := by
  rw [Option.map_eq_some_iff]
  constructor
  · rintro ⟨rest, htake, rfl⟩
    obtain ⟨back, hback, hkinds⟩ := takeEnd_eq_some_iff.mp htake
    refine ⟨back, hback, ?_⟩
    rw [← List.reverse_reverse kinds, hkinds, List.reverse_append, hback.reverse_eq]
  · rintro ⟨back, hback, rfl⟩
    refine ⟨middle.reverse, takeEnd_eq_some_iff.mpr ⟨back, hback, ?_⟩, List.reverse_reverse _⟩
    rw [List.reverse_append, hback.reverse_eq]

/-! ## Accepting -/

variable [DecidableEq κ] {assignable : κ → κ → Bool} {lenient : Bool} {inputs : Inputs κ}

theorem fitsSet_iff {set : List κ} {kind : κ} :
    fitsSet assignable lenient set kind ↔ FitsSet assignable lenient set kind := by
  simp [fitsSet, FitsSet]

theorem accepts_iff_fits :
    inputs.accepts assignable lenient kinds ↔ Fits (FitsSet assignable lenient) inputs kinds := by
  have hfits : FitsSet assignable lenient =
      fun set kind => fitsSet assignable lenient set kind = true := by
    funext set kind
    exact propext fitsSet_iff.symm
  rw [hfits]
  cases inputs with
  | nullary =>
    rw [accepts, List.isEmpty_iff]
    exact ⟨fun h => h ▸ .nullary, fun h => by cases h; rfl⟩
  | fixed positions =>
    have hall : ((positions.zip kinds).all fun p => fitsSet assignable lenient p.1 p.2) ↔
        ∀ {set kind}, (set, kind) ∈ positions.zip kinds →
          fitsSet assignable lenient set kind := by
      simp
    rw [accepts, Bool.and_eq_true, beq_iff_eq, hall, ← List.forall₂_iff_zip]
    exact ⟨.fixed, fun h => by cases h; assumption⟩
  | variadic v =>
    simp only [accepts]
    constructor
    · intro h
      split at h
      · cases h
      · rename_i middle hmiddle
        obtain ⟨rest, hfirst, hlast⟩ := Option.bind_eq_some_iff.mp hmiddle
        obtain ⟨first, hfitsFirst, rfl⟩ := takeEnd_eq_some_iff.mp hfirst
        obtain ⟨last, hfitsLast, rfl⟩ := takeEnd_reverse_eq_some_iff.mp hlast
        rw [Bool.and_eq_true, decide_eq_true_eq, List.all_eq_true] at h
        rw [← List.append_assoc]
        exact .variadic hfitsFirst hfitsLast h.1 h.2
    · intro h
      cases h with
      | @variadic _ first middle last hfirst hlast hleast hmiddle =>
        have hinner : (takeEnd (fitsSet assignable lenient) v.first (first ++ middle ++ last)).bind
            (fun rest => (takeEnd (fitsSet assignable lenient) v.last rest.reverse).map
              List.reverse) = some middle := by
          rw [Option.bind_eq_some_iff]
          exact ⟨middle ++ last, takeEnd_eq_some_iff.mpr ⟨first, hfirst, List.append_assoc ..⟩,
            takeEnd_reverse_eq_some_iff.mpr ⟨last, hlast, rfl⟩⟩
        simp only [hinner, Bool.and_eq_true, decide_eq_true_eq, List.all_eq_true]
        exact ⟨hleast, hmiddle⟩

end Reckon.Inputs
