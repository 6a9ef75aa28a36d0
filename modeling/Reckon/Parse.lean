import Reckon.Polish
import Reckon.Scan
import Reckon.Tree.Build

/-!
# Parsing

From a text to its tree, by way of its tokens and their reverse Polish order.
-/

namespace Reckon

structure Parsed where
  tokens : List Token
  polish : List Token
  tree : Tree

/-- Parses a text. -/
def Dialect.parse (d : Dialect) (source : String) : Except Fault Parsed := do
  let tokens := d.tokens source
  let polish ← Polish.ofTokens d tokens
  let tree ← Tree.ofPolish polish
  return ⟨tokens, polish, tree⟩

end Reckon
