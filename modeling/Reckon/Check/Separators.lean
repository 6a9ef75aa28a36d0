import Reckon.Check.Verdicts
import Reckon.Tree.Basic

/-!
# Separators

Finds separators that do not stand in the argument list of a call.  In the tree, those that do hang
below their call or below another separator.
-/

namespace Reckon

structure SeparatorUse where
  separator : Token
  parent : Option Token
deriving DecidableEq

namespace SeparatorUse

def isValid (u : SeparatorUse) : Bool :=
  u.parent.any fun p => p.kind == .call || p.kind == .separator

def diagnostic (u : SeparatorUse) : Diagnostic :=
  let message :=
    s!"argument separator `{u.separator.text}`{u.separator.whereabouts} " ++
      "is not inside a function call"
  (Diagnostic.coded .orphanSeparator message).pointing u.separator.span
    "outside of any argument list"

def inspect (t : Tree) : Verdicts SeparatorUse :=
  .ofTest isValid ((t.visitsOf .separator).map fun v => ⟨v.tree.token, v.parent⟩)

end SeparatorUse

end Reckon
