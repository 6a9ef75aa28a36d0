import Reckon.Call.Catalog
import Reckon.Dialect
import Reckon.Tree.Basic

/-!
# Terms

A term is what evaluation reads of a tree: both operands of an operator, the one operand of a unary
operator, the arguments of a call.  Placeholders for sides that a token leaves unused, and the
separators of an argument list, are gone.
-/

namespace Reckon

inductive Term where
  | literal (token : Token)
  | name (token : Token)
  /-- An operand that is not written; `owner` is the token that wants it. -/
  | absent (owner : Option Token)
  /-- A separator where an operand should be. -/
  | stray (token : Token)
  /-- A token that cannot stand in a tree. -/
  | alien (token : Token)
  /-- A call with the subtree that it stands for. -/
  | call (sort : CallSort) (tree : Tree) (operands : List Term)

namespace Term

/-- The term of a leaf; `parent` is the token above it. -/
def ofLeaf (parent : Option Token) (t : Token) : Term :=
  match t.kind with
  | .literal => literal t
  | .identifier => name t
  | .missing => absent parent
  | .separator => stray t
  | .opening | .closing => alien t
  | .operator => call .operator (.leaf t) []
  | .unary => call .unary (.leaf t) []
  | .call => call .function (.leaf t) []

/-- A tree read as one operand, and as the links of an argument list. -/
structure Reading where
  whole : Term
  links : List Term

def Reading.ofWhole (t : Term) : Reading := ⟨t, [t]⟩

/-- Both readings of a tree; `parent` is the token above it. -/
def reading (d : Dialect) (parent : Option Token) : Tree → Reading
  | .leaf t => .ofWhole (ofLeaf parent t)
  | .node t l r =>
    let left := reading d (some t) l
    let right := reading d (some t) r
    match t.kind with
    | .operator => .ofWhole (call .operator (.node t l r) [left.whole, right.whole])
    | .unary =>
      .ofWhole <| call .unary (.node t l r) <|
        match d.sideOf t.text with
        | .before => [right.whole]
        | .after => [left.whole]
    | .call =>
      .ofWhole (call .function (.node t l r) (if r.isMissing then [] else right.links))
    | .separator => ⟨stray t, left.whole :: right.links⟩
    | .literal => .ofWhole (literal t)
    | .identifier => .ofWhole (name t)
    | .missing => .ofWhole (absent parent)
    | .opening | .closing => .ofWhole (alien t)

/-- The term of a whole tree. -/
def ofTree (d : Dialect) (t : Tree) : Term := (reading d none t).whole

/-- The text of a literal or a variable, which rules on argument text look at. -/
def argumentText : Term → Option String
  | literal t => some t.text
  | name t => some t.text
  | _ => none

end Term

end Reckon
