import Mathlib.Data.List.Perm.Basic
import Mathlib.Data.Option.NAry
import Reckon.Proofs.Call.Arity
import Reckon.Scalar

/-!
# Merging arities

Merging joins arities by their ends: the lesser minimum, and the greater maximum if there are two.
So what is merged is covered just by the arities that cover both sides
(`Arity.merge_coveredBy_iff`), and the arity of a callable is the least one that covers all
overloads, in whatever order they are declared (`Callable.coveredBy_arity?_iff`,
`Callable.arity?_eq_of_perm`).
-/

namespace Reckon

namespace Arity

variable {a b c : Arity} {n : Nat}

/-- Every count that the arity allows is allowed by the other. -/
def CoveredBy (a b : Arity) : Prop := ∀ n, a.accepts n → b.accepts n

/-! ## Ends -/

theorem maximum_merge (a b : Arity) :
    (a.merge b).maximum = Option.map₂ max a.maximum b.maximum := by
  ext most
  rw [← Option.mem_def, mem_maximum_merge, ← Option.mem_def, Option.mem_map₂_iff]
  constructor
  · rintro ⟨m, hm, k, hk, rfl⟩
    exact ⟨m, k, hm, hk, rfl⟩
  · rintro ⟨m, k, hm, hk, rfl⟩
    exact ⟨m, hm, k, hk, rfl⟩

theorem accepts_congr (hmin : a.minimum = b.minimum) (hmax : a.maximum = b.maximum) (n : Nat) :
    a.accepts n = b.accepts n := by
  rw [Bool.eq_iff_iff, accepts_iff, accepts_iff, hmin, hmax]

theorem Proper.accepts_minimum (h : a.Proper) : a.accepts a.minimum :=
  accepts_iff.mpr ⟨Nat.le_refl _, h⟩

/-- A proper arity is covered by the arities whose ends lie around its own. -/
theorem Proper.coveredBy_iff (h : a.Proper) : a.CoveredBy c ↔
    c.minimum ≤ a.minimum ∧ ∀ k ∈ c.maximum, ∃ m ∈ a.maximum, m ≤ k := by
  constructor
  · intro hcover
    have hleast := accepts_iff.mp (hcover _ h.accepts_minimum)
    refine ⟨hleast.1, fun k hk => ?_⟩
    cases ha : a.maximum with
    | none =>
      -- an arity without a largest count allows more than `k`
      have hmore : a.accepts (max a.minimum (k + 1)) :=
        accepts_iff.mpr ⟨Nat.le_max_left _ _, by simp [ha]⟩
      have hle := (accepts_iff.mp (hcover _ hmore)).2 k hk
      omega
    | some m =>
      have hmost : a.accepts m := by
        refine accepts_iff.mpr ⟨h m ha, ?_⟩
        simp [ha]
      exact ⟨m, rfl, (accepts_iff.mp (hcover m hmost)).2 k hk⟩
  · rintro ⟨hmin, hmax⟩ n hn
    rw [accepts_iff] at hn ⊢
    refine ⟨by omega, fun k hk => ?_⟩
    obtain ⟨m, hm, hle⟩ := hmax k hk
    have := hn.2 m hm
    omega

/-! ## Least upper bounds -/

/-- What is merged is covered by an arity just if both sides are. -/
theorem merge_coveredBy_iff (ha : a.Proper) (hb : b.Proper) :
    (a.merge b).CoveredBy c ↔ a.CoveredBy c ∧ b.CoveredBy c := by
  rw [(ha.merge hb).coveredBy_iff, ha.coveredBy_iff, hb.coveredBy_iff, minimum_merge]
  constructor
  · rintro ⟨hmin, hmax⟩
    have hends : ∀ k ∈ c.maximum,
        (∃ m ∈ a.maximum, m ≤ k) ∧ ∃ m ∈ b.maximum, m ≤ k := by
      intro k hk
      obtain ⟨most, hmost, hle⟩ := hmax k hk
      obtain ⟨m, hm, m', hm', rfl⟩ := mem_maximum_merge.mp hmost
      exact ⟨⟨m, hm, by omega⟩, m', hm', by omega⟩
    exact ⟨⟨by omega, fun k hk => (hends k hk).1⟩, by omega, fun k hk => (hends k hk).2⟩
  · rintro ⟨⟨hmin, hmax⟩, hmin', hmax'⟩
    refine ⟨by omega, fun k hk => ?_⟩
    obtain ⟨m, hm, hle⟩ := hmax k hk
    obtain ⟨m', hm', hle'⟩ := hmax' k hk
    exact ⟨max m m', mem_maximum_merge.mpr ⟨m, hm, m', hm', rfl⟩, by omega⟩

/-! ## Canonical forms -/

/-- A single count is written as such. -/
def Canonical (a : Arity) : Prop := ∀ n, a ≠ between n n

theorem canonical_merge (a b : Arity) : (a.merge b).Canonical := by
  intro n h
  simp only [merge] at h
  split at h
  · split at h
    · cases h
    · rename_i hne
      obtain ⟨hleast, hmost⟩ := between.inj h
      exact hne (hmost.trans hleast.symm)
  · cases h

theorem Canonical.eq_of_ends (ha : a.Canonical) (hb : b.Canonical)
    (hmin : a.minimum = b.minimum) (hmax : a.maximum = b.maximum) : a = b := by
  cases a <;> cases b <;> simp only [minimum, maximum, Option.some.injEq, reduceCtorEq] at hmin hmax
  case fixed.fixed => rw [hmin]
  case atLeast.atLeast => rw [hmin]
  case between.between => rw [hmin, hmax]
  case fixed.between n least most =>
    subst hmin hmax
    exact absurd rfl (hb n)
  case between.fixed least most n =>
    subst hmin hmax
    exact absurd rfl (ha most)

theorem merge_comm (a b : Arity) : a.merge b = b.merge a := by
  refine (canonical_merge a b).eq_of_ends (canonical_merge b a) ?_ ?_
  · rw [minimum_merge, minimum_merge, Nat.min_comm]
  · rw [maximum_merge, maximum_merge, Option.map₂_comm Nat.max_comm]

theorem merge_assoc (a b c : Arity) : (a.merge b).merge c = a.merge (b.merge c) := by
  refine (canonical_merge _ c).eq_of_ends (canonical_merge a _) ?_ ?_
  · simp only [minimum_merge, Nat.min_assoc]
  · simp only [maximum_merge]
    exact Option.map₂_assoc Nat.max_assoc

/-- Merging an arity with itself keeps its ends. -/
theorem minimum_merge_self (a : Arity) : (a.merge a).minimum = a.minimum := by
  rw [minimum_merge, Nat.min_self]

theorem maximum_merge_self (a : Arity) : (a.merge a).maximum = a.maximum := by
  rw [maximum_merge]
  cases a.maximum <;> simp

end Arity

/-! ## Callables -/

namespace Callable

variable {D : Domain} {c c' : Callable D} {a b : Arity}

instance : RightCommutative fun (a : Arity) (o : Overload D) => a.merge o.inputs.arity where
  right_comm a o o' := by
    rw [Arity.merge_assoc, Arity.merge_comm o.inputs.arity, ← Arity.merge_assoc]

theorem foldl_merge_coveredBy_iff (ha : a.Proper) (os : List (Overload D)) :
    (os.foldl (fun a o => a.merge o.inputs.arity) a).CoveredBy b ↔
      a.CoveredBy b ∧ ∀ o ∈ os, o.inputs.arity.CoveredBy b := by
  induction os generalizing a with
  | nil => simp
  | cons o os ih =>
    have ho := o.inputs.proper_arity
    rw [List.foldl_cons, ih (ha.merge ho), Arity.merge_coveredBy_iff ha ho, List.forall_mem_cons,
      and_assoc]

theorem arity?_eq_none_iff : c.arity? = none ↔ c.overloads = [] := by
  rw [arity?]
  cases c.overloads <;> simp

/-- The arity of a callable is covered just by those that cover every overload. -/
theorem coveredBy_arity?_iff (h : c.arity? = some a) :
    a.CoveredBy b ↔ ∀ o ∈ c.overloads, o.inputs.arity.CoveredBy b := by
  rw [arity?] at h
  split at h
  · cases h
  · rename_i o os hos
    rw [hos, ← Option.some.inj h, foldl_merge_coveredBy_iff o.inputs.proper_arity,
      List.forall_mem_cons]

/-- The order of the overloads does not matter to the arity. -/
theorem arity?_eq_of_perm (h : c.overloads.Perm c'.overloads) : c.arity? = c'.arity? := by
  unfold arity?
  generalize c.overloads = os, c'.overloads = os' at h
  induction h with
  | nil => rfl
  | cons o hperm => exact congrArg some (hperm.foldl_eq _)
  | swap o o' os =>
    dsimp only [List.foldl_cons]
    rw [Arity.merge_comm]
  | trans _ _ ih ih' => exact ih.trans ih'

/-- Takes an integer and a text, no argument, or an integer. -/
def scattered : Callable scalars where
  name := "scattered"
  overloads :=
    [⟨.fixed [[.int], [.text]], .int, fun _ => .ok (), Scalar.Operation.count.run⟩,
      ⟨.nullary, .int, fun _ => .ok (), (Scalar.Operation.constant (.int 0)).run⟩,
      ⟨.fixed [[.int]], .int, fun _ => .ok (), Scalar.Operation.sum.run⟩]

end Callable

namespace Arity

/-- **Merging gives the least arity that covers both.**  It is commutative and associative, and an
arity merged with itself allows the same counts between the same ends.  So a callable with overloads
has the least arity that covers them all, however they are ordered. -/
theorem merge_laws :
    (∀ a b : Arity, a.Proper → b.Proper →
      (a.merge b).Proper ∧
      (∀ n, a.accepts n ∨ b.accepts n → (a.merge b).accepts n) ∧
      ∀ c : Arity, a.CoveredBy c → b.CoveredBy c → (a.merge b).CoveredBy c) ∧
    (∀ a b : Arity, a.merge b = b.merge a) ∧
    (∀ a b c : Arity, (a.merge b).merge c = a.merge (b.merge c)) ∧
    (∀ a : Arity, (∀ n, (a.merge a).accepts n = a.accepts n) ∧
      (a.merge a).minimum = a.minimum ∧ (a.merge a).maximum = a.maximum) ∧
    ∀ (D : Domain) (c : Callable D), (c.arity? = none ↔ c.overloads = []) ∧
      ∀ a, c.arity? = some a → a.Proper ∧
        (∀ b : Arity, a.CoveredBy b ↔ ∀ o ∈ c.overloads, o.inputs.arity.CoveredBy b) ∧
        ∀ c' : Callable D, c'.overloads.Perm c.overloads → c'.arity? = some a := by
  refine ⟨fun a b ha hb => ⟨ha.merge hb, fun n => accepts_merge, fun c hac hbc => ?_⟩, merge_comm,
    merge_assoc, fun a => ⟨?_, minimum_merge_self a, maximum_merge_self a⟩,
    fun D c => ⟨Callable.arity?_eq_none_iff, fun a h => ⟨Callable.proper_of_arity? h, ?_, ?_⟩⟩⟩
  · exact (merge_coveredBy_iff ha hb).mpr ⟨hac, hbc⟩
  · exact accepts_congr (minimum_merge_self a) (maximum_merge_self a)
  · exact fun b => Callable.coveredBy_arity?_iff h
  · exact fun c' hperm => (Callable.arity?_eq_of_perm hperm).trans h

/-- One count is written in two ways, a gap between two ranges is filled, and the overloads may be
declared in reverse. -/
theorem merge_laws_of_gap :
    (between 1 2).merge (between 4 4) = between 1 4 ∧
      ((between 1 2).merge (between 4 4)).CoveredBy (atLeast 1) ∧
      (between 4 4).merge (between 4 4) = fixed 4 ∧
      ((between 4 4).merge (between 4 4)).accepts 4 = (between 4 4).accepts 4 ∧
      Callable.scattered.arity? = some (between 0 2) ∧
      ({ Callable.scattered with overloads := Callable.scattered.overloads.reverse } :
        Callable scalars).arity? = some (between 0 2) := by
  obtain ⟨hleast, -, -, hself, hcallable⟩ := merge_laws
  have hproper : (between 1 2).Proper ∧ (between 4 4).Proper := by simp [Proper, minimum, maximum]
  have hcovered : (between 1 2).CoveredBy (atLeast 1) ∧ (between 4 4).CoveredBy (atLeast 1) := by
    constructor <;> intro n <;> simp [accepts] <;> omega
  have harity : Callable.scattered.arity? = some (between 0 2) := by decide
  refine ⟨by decide, ?_, by decide, (hself _).1 4, harity, ?_⟩
  · exact (hleast _ _ hproper.1 hproper.2).2.2 _ hcovered.1 hcovered.2
  · exact ((hcallable scalars Callable.scattered).2 _ harity).2.2 _ (List.reverse_perm _)

end Arity

end Reckon
