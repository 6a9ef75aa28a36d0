import Mathlib.Data.Set.Card
import Mathlib.Order.Interval.Finset.Nat
import Reckon.Tree.Basic

/-!
# Spans as sets of bytes

A span covers the bytes from its start up to its stop, and `union` gives the least span around two
others.  So the span of a subtree is the hull of the spans of its tokens, in whatever order they are
joined (`Tree.span_eq_hull`, `Span.hull_eq_of_perm`).

Spans that share a byte overlap.  An empty span covers no byte, and yet it overlaps a span in whose
midst it stands (`Span.overlaps_iff_exists`, `Span.overlaps_iff_exists_iff`).
-/

namespace Reckon

open Reckon.Tree (joinSpans)

namespace Span

variable {s t u : Span} {ss ts : List Span} {n : Nat}

/-- The byte at an offset belongs to the span. -/
def Contains (s : Span) (n : Nat) : Prop := s.start ≤ n ∧ n < s.stop

/-- Both ends lie between those of the other span. -/
def Within (s u : Span) : Prop := u.start ≤ s.start ∧ s.stop ≤ u.stop

/-- The span is empty and stands between two bytes of the other. -/
def Splits (s t : Span) : Prop := s.isEmpty ∧ t.start < s.start ∧ s.start < t.stop

theorem eq_of_ends (hstart : s.start = t.start) (hstop : s.stop = t.stop) : s = t := by
  cases s
  cases t
  simp_all

/-! ## Bytes -/

theorem isEmpty_iff : s.isEmpty ↔ s.start = s.stop := beq_iff_eq

theorem ncard_contains (s : Span) : {n | s.Contains n}.ncard = s.length := by
  have hrange : {n | s.Contains n} = ↑(Finset.Ico s.start s.stop) := by
    ext n
    simp [Contains]
  rw [hrange, Set.ncard_coe_finset, Nat.card_Ico, length]

/-! ## Overlaps -/

theorem overlaps_iff : s.overlaps t ↔ s.start < t.stop ∧ t.start < s.stop := by
  simp [overlaps]

theorem overlaps_comm (s t : Span) : s.overlaps t = t.overlaps s := Bool.and_comm _ _

/-- Spans overlap if they share a byte, or if one is empty and stands between two bytes of the
other. -/
theorem overlaps_iff_exists : s.overlaps t ↔
    (∃ n, s.Contains n ∧ t.Contains n) ∨ s.Splits t ∨ t.Splits s := by
  have hs := s.ordered
  have ht := t.ordered
  simp only [overlaps_iff, Contains, Splits, isEmpty_iff]
  constructor
  · rintro ⟨hst, hts⟩
    by_cases hsEmpty : s.start = s.stop
    · exact .inr (.inl ⟨hsEmpty, by omega, hst⟩)
    · by_cases htEmpty : t.start = t.stop
      · exact .inr (.inr ⟨htEmpty, by omega, hts⟩)
      · -- the later of the two starts is a byte of both
        exact .inl ⟨max s.start t.start, by omega, by omega⟩
  · rintro (⟨n, hn, hn'⟩ | h | h) <;> omega

theorem Splits.not_exists (h : s.Splits t) : ¬ ∃ n, s.Contains n ∧ t.Contains n := by
  rintro ⟨n, ⟨hle, hlt⟩, -⟩
  have hempty := isEmpty_iff.mp h.1
  omega

/-- To overlap is to share a byte, unless one of the spans stands in the midst of the other. -/
theorem overlaps_iff_exists_iff : (s.overlaps t ↔ ∃ n, s.Contains n ∧ t.Contains n) ↔
    ¬ s.Splits t ∧ ¬ t.Splits s := by
  rw [overlaps_iff_exists]
  constructor
  · intro h
    refine ⟨fun hsplits => hsplits.not_exists (h.mp (.inr (.inl hsplits))), fun hsplits => ?_⟩
    obtain ⟨n, hs, ht⟩ := h.mp (.inr (.inr hsplits))
    exact hsplits.not_exists ⟨n, ht, hs⟩
  · rintro ⟨hs, ht⟩
    simp [hs, ht]

/-! ## Unions -/

theorem Within.antisymm (h : s.Within t) (h' : t.Within s) : s = t :=
  eq_of_ends (Nat.le_antisymm h'.1 h.1) (Nat.le_antisymm h.2 h'.2)

theorem Within.refl (s : Span) : s.Within s := ⟨Nat.le_refl _, Nat.le_refl _⟩

/-- A span lies around the union just if it lies around both. -/
theorem union_within_iff : (s.union t).Within u ↔ s.Within u ∧ t.Within u := by
  simp only [Within, union]
  omega

theorem union_comm (s t : Span) : s.union t = t.union s :=
  eq_of_ends (Nat.min_comm _ _) (Nat.max_comm _ _)

theorem union_assoc (s t u : Span) : (s.union t).union u = s.union (t.union u) :=
  eq_of_ends (Nat.min_assoc _ _ _) (Nat.max_assoc _ _ _)

theorem union_self (s : Span) : s.union s = s := eq_of_ends (Nat.min_self _) (Nat.max_self _)

instance : Std.Associative union := ⟨union_assoc⟩

/-! ## Hulls -/

theorem hull_eq_none_iff : hull ss = none ↔ ss = [] := by
  cases ss <;> simp [hull]

theorem foldl_union_within_iff (s : Span) (ss : List Span) :
    (ss.foldl union s).Within u ↔ ∀ t ∈ s :: ss, t.Within u := by
  induction ss generalizing s with
  | nil => simp
  | cons t ss ih =>
    rw [List.foldl_cons, ih]
    simp only [List.forall_mem_cons, union_within_iff, and_assoc]

/-- A span lies around the hull just if it lies around all. -/
theorem hull_within_iff (h : hull ss = some s) : s.Within u ↔ ∀ t ∈ ss, t.Within u := by
  cases ss with
  | nil => cases h
  | cons t ss =>
    obtain rfl := Option.some.inj h
    exact foldl_union_within_iff t ss

/-- The hull does not depend on the order of the spans. -/
theorem hull_eq_of_perm (h : ss.Perm ts) : hull ss = hull ts := by
  cases hs : hull ss with
  | none =>
    obtain rfl := hull_eq_none_iff.mp hs
    rw [List.nil_perm.mp h, hull]
  | some s =>
    cases ht : hull ts with
    | none =>
      obtain rfl := hull_eq_none_iff.mp ht
      rw [List.perm_nil.mp h] at hs
      cases hs
    | some t =>
      have haround : ∀ u, s.Within u ↔ t.Within u := by
        intro u
        simp only [hull_within_iff hs, hull_within_iff ht, h.mem_iff]
      exact congrArg some (((haround t).mpr (.refl t)).antisymm ((haround s).mp (.refl s)))

theorem hull_append (ss ts : List Span) : hull (ss ++ ts) = joinSpans (hull ss) (hull ts) := by
  cases ss with
  | nil => rfl
  | cons s ss =>
    cases ts with
    | nil => simp [hull, joinSpans]
    | cons t ts =>
      rw [List.cons_append, hull, List.foldl_append, List.foldl_cons, List.foldl_assoc]
      rfl

theorem hull_toList (s : Option Span) : hull s.toList = s := by
  cases s <;> rfl

end Span

namespace Tree

/-- The span of a tree is the hull of the spans of its tokens. -/
theorem span_eq_hull (t : Tree) : t.span = Span.hull (t.postorder.filterMap Token.span) := by
  have htoken : ∀ token : Token, [token].filterMap Token.span = token.span.toList := by
    intro token
    cases h : token.span <;> simp [h]
  induction t with
  | leaf token => rw [postorder_leaf, htoken, Span.hull_toList, span]
  | node token l r ihl ihr =>
    rw [postorder_node, ← List.append_assoc, List.filterMap_append, List.filterMap_append, htoken,
      Span.hull_append, Span.hull_append, ← ihl, ← ihr, Span.hull_toList, span]

end Tree

namespace Span

/-- **Spans are intervals of bytes.**  Their ends are in order, their length counts their bytes, and
their union is the least span around them, so that the span of a tree is the same in whatever order
its tokens are joined.  They overlap if they share a byte, and else just if one of them is empty and
stands between two bytes of the other. -/
theorem interval_laws (s t u : Span) :
    (∀ a b, (between a b).start = min a b ∧ (between a b).stop = max a b) ∧
    (∀ start length, ofLength start length = between start (start + length) ∧
      (ofLength start length).length = length) ∧
    s.start ≤ s.stop ∧ s.length = {n | s.Contains n}.ncard ∧
    ((s.union t).Within u ↔ s.Within u ∧ t.Within u) ∧
    s.union t = t.union s ∧
    (s.union t).union u = s.union (t.union u) ∧
    s.union s = s ∧
    (∀ (tree : Tree) (ts : List Token), ts.Perm tree.postorder →
      hull (ts.filterMap Token.span) = tree.span) ∧
    s.overlaps t = t.overlaps s ∧
    (s.overlaps t ↔ (∃ n, s.Contains n ∧ t.Contains n) ∨ s.Splits t ∨ t.Splits s) ∧
    ((s.overlaps t ↔ ∃ n, s.Contains n ∧ t.Contains n) ↔ ¬ s.Splits t ∧ ¬ t.Splits s) := by
  refine ⟨fun a b => ⟨rfl, rfl⟩, fun start length => ⟨?_, Nat.add_sub_cancel_left ..⟩, s.ordered,
    (ncard_contains s).symm, union_within_iff, union_comm s t, union_assoc s t u, union_self s,
    fun tree ts h => ?_, overlaps_comm s t, overlaps_iff_exists, overlaps_iff_exists_iff⟩
  · have hle : start ≤ start + length := Nat.le_add_right start length
    exact eq_of_ends (Nat.min_eq_left hle).symm (Nat.max_eq_right hle).symm
  · rw [hull_eq_of_perm (h.filterMap Token.span), Tree.span_eq_hull]

/-- `2*x`, whose operator is given before its operands, and two spans of which neither is empty. -/
theorem interval_laws_of_product :
    hull ([⟨.operator, "*", some 1⟩, ⟨.identifier, "x", some 2⟩, ⟨.literal, "2", some 0⟩].filterMap
        Token.span) = some (between 3 0) ∧
      ((between 3 0).overlaps (between 2 5) ↔
        ∃ n, (between 3 0).Contains n ∧ (between 2 5).Contains n) := by
  obtain ⟨-, -, -, -, -, -, -, -, hfold, -, -, hoverlaps⟩ :=
    interval_laws (between 3 0) (between 2 5) (between 0 5)
  let product : Tree := .node ⟨.operator, "*", some 1⟩ (.leaf ⟨.literal, "2", some 0⟩)
    (.leaf ⟨.identifier, "x", some 2⟩)
  refine ⟨?_, hoverlaps.mpr ⟨?_, ?_⟩⟩
  · rw [hfold product _ (by decide)]
    decide
  · rintro ⟨hempty, -⟩
    exact absurd hempty (by decide)
  · rintro ⟨hempty, -⟩
    exact absurd hempty (by decide)

/-- The empty span at 3 has no byte in common with the span from 1 to 5, and overlaps it. -/
theorem overlaps_without_shared_byte : ¬ ∀ a b c d, (between a b).overlaps (between c d) ↔
    ∃ n, (between a b).Contains n ∧ (between c d).Contains n := by
  intro h
  obtain ⟨n, ⟨hle, hlt⟩, -⟩ := (h 3 3 1 5).mp (by decide)
  have hstart : (between 3 3).start = 3 := rfl
  have hstop : (between 3 3).stop = 3 := rfl
  omega

end Span

end Reckon
