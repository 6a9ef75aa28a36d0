import Reckon.Fault

/-!
# Building trees

`Tree.ofPolish` builds the tree that reverse Polish order spells.  A token becomes a leaf if it is
an operand or if there are not two subtrees to join.
-/

namespace Reckon.Tree

/-- Takes in one token; the finished subtrees are on the stack, the latest first. -/
def shift (stack : List Tree) (t : Token) : List Tree :=
  match stack with
  | right :: left :: below =>
    if t.kind.isOperand then leaf t :: right :: left :: below else node t left right :: below
  | stack => leaf t :: stack

/-- The tree that tokens in reverse Polish order spell. -/
def ofPolish (ts : List Token) : Except Fault Tree :=
  match ts.foldl shift [] with
  | [] => .error .empty
  | [t] => .ok t
  | residual => .error (.residual residual.reverse)

end Reckon.Tree
