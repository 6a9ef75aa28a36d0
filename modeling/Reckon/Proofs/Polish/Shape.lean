import Reckon.Proofs.Polish.Language

/-!
# The shape of trees

Every inner node has two subtrees, but not every token takes a value from both sides.  In a
well-formed tree the side that goes unused holds nothing but a placeholder.
-/

namespace Reckon

open Polish

/-- Whether a token can stand between two subtrees: a unary operator has nothing on its other side,
and a call has nothing on its left. -/
def Dialect.Joins (d : Dialect) (t : Token) (l r : Tree) : Prop :=
  match t.kind with
  | .operator | .separator => True
  | .unary =>
    match d.sideOf t.text with
    | .before => l.isMissing
    | .after => r.isMissing
  | .call => l.isMissing
  | .literal | .identifier | .opening | .closing | .missing => False

/-- Leaves are operands, and every other token has what it needs on both sides. -/
def Tree.WellFormed (d : Dialect) : Tree → Prop
  | leaf t => t.kind.isOperand
  | node t l r => d.Joins t l r ∧ l.WellFormed d ∧ r.WellFormed d

variable {d : Dialect} {t : Token} {l r : Tree}

/-- The unused side of a unary operator is the one on which the conversion writes a placeholder. -/
theorem standsBefore_iff_sideOf (hk : t.kind = .unary) :
    (d.rank t).standsBefore ↔ d.sideOf t.text = .before := by
  rw [standsBefore_iff hk, Dialect.startsOperand, hk]
  exact beq_iff_eq

namespace Dialect.Joins

theorem not_isOperand (h : d.Joins t l r) : ¬ t.kind.isOperand := by
  cases hk : t.kind <;> simp_all [Joins, TokenKind.isOperand]

theorem ne_opening (h : d.Joins t l r) : t.kind ≠ .opening := by
  intro hk
  simp [Joins, hk] at h

theorem not_isMissing (h : d.Joins t l r) : ¬ t.isMissing := by
  intro hm
  rw [Token.isMissing, beq_iff_eq] at hm
  simp [Joins, hm] at h

end Dialect.Joins

theorem joins_of_isBinary (hk : t.kind.isBinary) (l r : Tree) : d.Joins t l r := by
  cases hk' : t.kind <;> simp_all [Dialect.Joins, TokenKind.isBinary]

theorem joins_of_call (hk : t.kind = .call) (r : Tree) :
    d.Joins t (.leaf .placeholder) r := by
  rw [Dialect.Joins, hk]
  rfl

theorem joins_of_standsBefore (hk : t.kind = .unary) (hb : (d.rank t).standsBefore) (r : Tree) :
    d.Joins t (.leaf .placeholder) r := by
  rw [Dialect.Joins, hk, (standsBefore_iff_sideOf hk).mp hb]
  rfl

theorem joins_of_standsBehind (hk : t.kind = .unary) (hb : ¬ (d.rank t).standsBefore) (l : Tree) :
    d.Joins t l (.leaf .placeholder) := by
  rw [standsBefore_iff_sideOf hk] at hb
  rw [Dialect.Joins, hk]
  cases hs : d.sideOf t.text with
  | before => exact absurd hs hb
  | after => rfl

namespace Tree

theorem wellFormed_placeholder : (leaf .placeholder).WellFormed d := rfl

/-- Where a well-formed tree has no token, it has nothing at all. -/
theorem WellFormed.eq_leaf_of_isMissing {t : Tree} (h : t.WellFormed d) (hm : t.isMissing) :
    ∃ token, token.isMissing ∧ t = .leaf token := by
  cases t with
  | leaf token => exact ⟨token, hm, rfl⟩
  | node token l r => exact absurd hm h.1.not_isMissing

end Tree

end Reckon
