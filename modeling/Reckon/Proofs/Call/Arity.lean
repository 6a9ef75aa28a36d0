import Reckon.Call.Callable

/-!
# Arities cover calls

An arity allows the counts between its two ends.  The arity of a shape allows every number of
arguments that fit the shape, and merging keeps what either side allows, so the arity of a callable
allows every call that one of its overloads takes (`Callable.accepts_of_arity?`).
-/

namespace Reckon

/-! ## Arities -/

namespace Arity

variable {a b : Arity} {n : Nat}

theorem accepts_iff : a.accepts n ↔ a.minimum ≤ n ∧ ∀ most ∈ a.maximum, n ≤ most := by
  cases a with
  | fixed count =>
    simp only [accepts, minimum, maximum, beq_iff_eq, Option.mem_some_iff, forall_eq']
    omega
  | atLeast least => simp [accepts, minimum, maximum]
  | between least most => simp [accepts, minimum, maximum]

/-- The ends of the arity are in order, so that it allows some count. -/
def Proper (a : Arity) : Prop := ∀ most ∈ a.maximum, a.minimum ≤ most

theorem minimum_merge (a b : Arity) : (a.merge b).minimum = min a.minimum b.minimum := by
  simp only [merge]
  split
  · split <;> rfl
  · rfl

theorem mem_maximum_merge {most : Nat} : most ∈ (a.merge b).maximum ↔
    ∃ m ∈ a.maximum, ∃ k ∈ b.maximum, most = max m k := by
  unfold merge
  cases ha : a.maximum with
  | none => simp [maximum]
  | some m =>
    cases hb : b.maximum with
    | none => simp [maximum]
    | some k =>
      by_cases heq : max m k = min a.minimum b.minimum
      · simp [heq, maximum, eq_comm]
      · simp [heq, maximum, eq_comm]

/-- Merging keeps what either side allows. -/
theorem accepts_merge (h : a.accepts n ∨ b.accepts n) : (a.merge b).accepts n := by
  rw [accepts_iff, minimum_merge]
  simp only [accepts_iff] at h
  refine ⟨by omega, ?_⟩
  intro most hmost
  obtain ⟨m, hm, k, hk, rfl⟩ := mem_maximum_merge.mp hmost
  rcases h with ⟨-, h⟩ | ⟨-, h⟩
  · have := h m hm
    omega
  · have := h k hk
    omega

theorem Proper.merge (ha : a.Proper) (hb : b.Proper) : (a.merge b).Proper := by
  intro most hmost
  obtain ⟨m, hm, k, hk, rfl⟩ := mem_maximum_merge.mp hmost
  have := ha m hm
  have := hb k hk
  rw [minimum_merge]
  omega

end Arity

/-! ## Shapes -/

namespace Inputs

variable {κ : Type} {inputs : Inputs κ}

theorem proper_arity (inputs : Inputs κ) : inputs.arity.Proper := by
  cases inputs with
  | nullary => simp [arity, Arity.Proper, Arity.maximum, Arity.minimum]
  | fixed positions => simp [arity, Arity.Proper, Arity.maximum, Arity.minimum]
  | variadic v =>
    unfold arity
    dsimp only
    split <;> simp [Arity.Proper, Arity.maximum, Arity.minimum]

/-- An end that is declared takes one argument. -/
theorem length_of_takeEnd {fits : List κ → κ → Bool} {set : Option (List κ)}
    {kinds rest : List κ} (h : takeEnd fits set kinds = some rest) :
    kinds.length = rest.length + set.toList.length := by
  cases set with
  | none =>
    rw [← Option.some.inj h]
    rfl
  | some set =>
    cases kinds with
    | nil => cases h
    | cons kind kinds =>
      rw [takeEnd] at h
      split at h
      · rw [← Option.some.inj h]
        rfl
      · cases h

variable [DecidableEq κ] {assignable : κ → κ → Bool} {lenient : Bool} {kinds : List κ}

/-- The arity of a shape allows as many arguments as fit it. -/
theorem accepts_arity (h : inputs.accepts assignable lenient kinds) :
    inputs.arity.accepts kinds.length := by
  cases inputs with
  | nullary =>
    have hnil : kinds = [] := by simpa [accepts] using h
    simp [arity, Arity.accepts, hnil]
  | fixed positions =>
    simp only [accepts, Bool.and_eq_true, beq_iff_eq] at h
    simp [arity, Arity.accepts, h.1]
  | variadic v =>
    simp only [accepts] at h
    split at h
    · cases h
    · rename_i middle hmiddle
      obtain ⟨rest, hfirst, hlast⟩ := Option.bind_eq_some_iff.mp hmiddle
      obtain ⟨inner, hinner, rfl⟩ := Option.map_eq_some_iff.mp hlast
      have hlength : kinds.length = inner.length + v.ends := by
        have hkinds := length_of_takeEnd hfirst
        have hrest := length_of_takeEnd hinner
        rw [List.length_reverse] at hrest
        rw [Variadic.ends]
        omega
      simp only [Bool.and_eq_true, decide_eq_true_eq, List.length_reverse,
        List.all_reverse] at h
      obtain ⟨hleast, hall⟩ := h
      unfold arity
      dsimp only
      split
      · -- nothing fits an empty middle, so there are only the ends
        rename_i hempty
        rw [List.isEmpty_iff] at hempty
        cases inner with
        | nil => simpa [Arity.accepts] using hlength
        | cons kind inner => simp [hempty, fitsSet] at hall
      · simp only [Arity.accepts, decide_eq_true_eq]
        omega

end Inputs

/-! ## Callables -/

namespace Callable

variable {D : Domain} {c : Callable D} {a : Arity} {n : Nat}

/-- What merging the arities of more overloads gives. -/
theorem foldl_merge (os : List (Overload D)) (a : Arity) :
    (∀ n, (a.accepts n ∨ ∃ o ∈ os, o.inputs.arity.accepts n) →
      (os.foldl (fun a o => a.merge o.inputs.arity) a).accepts n) ∧
    (a.Proper → (os.foldl (fun a o => a.merge o.inputs.arity) a).Proper) := by
  induction os generalizing a with
  | nil => simp
  | cons o os ih =>
    obtain ⟨haccepts, hproper⟩ := ih (a.merge o.inputs.arity)
    refine ⟨fun n h => haccepts n ?_, fun h => hproper (h.merge o.inputs.proper_arity)⟩
    rcases h with h | ⟨o', ho', h⟩
    · exact .inl (Arity.accepts_merge (.inl h))
    · rcases List.mem_cons.mp ho' with rfl | ho'
      · exact .inl (Arity.accepts_merge (.inr h))
      · exact .inr ⟨o', ho', h⟩

theorem proper_of_arity? (h : c.arity? = some a) : a.Proper := by
  rw [arity?] at h
  split at h
  · cases h
  · rename_i o os _
    rw [← Option.some.inj h]
    exact (foldl_merge os o.inputs.arity).2 o.inputs.proper_arity

theorem isSome_arity? (h : c.overloads ≠ []) : c.arity?.isSome := by
  rw [arity?]
  split
  · rename_i hnil
    exact absurd hnil h
  · rfl

/-- The arity of a callable allows every call that one of its overloads takes. -/
theorem accepts_of_arity? {o : Overload D} {lenient : Bool} {kinds : List D.Kind}
    (ha : c.arity? = some a) (ho : o ∈ c.overloads) (h : o.accepts lenient kinds) :
    a.accepts kinds.length := by
  have harity := Inputs.accepts_arity h
  rw [arity?] at ha
  split at ha
  · cases ha
  · rename_i first os hos
    rw [← Option.some.inj ha]
    refine (foldl_merge os first.inputs.arity).1 _ ?_
    rw [hos] at ho
    rcases List.mem_cons.mp ho with rfl | ho
    · exact .inl harity
    · exact .inr ⟨o, ho, harity⟩

end Callable

end Reckon
