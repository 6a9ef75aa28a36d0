import Reckon.Check.Verdicts
import Reckon.Dialect
import Reckon.Tree.Basic

/-!
# Operands

Finds operators that lack an operand.
-/

namespace Reckon

/-- The side of an operator that has no operand. -/
inductive Lack where
  | left
  | right
  | both
deriving DecidableEq

def Lack.label : Lack → String
  | left => "left operand"
  | right => "right operand"
  | both => "operands"

structure OperandUse where
  operator : Token
  lack : Option Lack
deriving DecidableEq

namespace OperandUse

def diagnostic (u : OperandUse) : Diagnostic :=
  let side := (u.lack.getD .both).label
  let sort := match u.operator.kind with
    | .unary => "unary operator"
    | _ => "operator"
  let message := s!"{sort} `{u.operator.text}`{u.operator.whereabouts} is missing its {side}"
  (Diagnostic.coded .missingOperand message).pointing u.operator.span s!"{side} expected"

/-- An operand is absent when there is no subtree or only a placeholder. -/
def isAbsent : Option Tree → Bool
  | none => true
  | some t => t.isMissing

/-- What a node lacks, if it is an operator at all. -/
def ofNode? (d : Dialect) (t : Tree) : Option OperandUse :=
  match t.kind with
  | .operator =>
    some ⟨t.token,
      match isAbsent t.left?, isAbsent t.right? with
      | true, true => some .both
      | true, false => some .left
      | false, true => some .right
      | false, false => none⟩
  | .unary =>
    some ⟨t.token,
      match d.sideOf t.token.text with
      | .before => if isAbsent t.right? then some .right else none
      | .after => if isAbsent t.left? then some .left else none⟩
  | _ => none

def inspect (d : Dialect) (t : Tree) : Verdicts OperandUse :=
  .ofTest (·.lack.isNone) (t.visits.filterMap fun v => ofNode? d v.tree)

end OperandUse

end Reckon
