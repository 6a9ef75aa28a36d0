import Reckon.Call.Contracts
import Reckon.Check.Verdicts
import Reckon.Tree.Basic

/-!
# Arguments

Finds calls with arguments that are not written, and calls whose number of arguments does not agree
with the contract of their name.
-/

namespace Reckon

/-- A call with the places, from zero, of its empty arguments. -/
structure EmptyArguments where
  call : Token
  places : List Nat
deriving DecidableEq

namespace EmptyArguments

def diagnostic (e : EmptyArguments) : Diagnostic :=
  let listing := Text.joinWith ", " (e.places.map fun place => toString (place + 1))
  let noun := if e.places.length = 1 then "argument" else "arguments"
  let message := s!"call to `{e.call.text}` has empty {noun} {listing}"
  ((Diagnostic.coded .emptyArgument message).pointing e.call.span "in this call").advising
    "remove the extra separator or fill in the argument"

/-- The places of the placeholders in a list of arguments whose first has place `first`. -/
def placesFrom (first : Nat) : List Tree → List Nat
  | [] => []
  | t :: ts => if t.isMissing then first :: placesFrom (first + 1) ts else placesFrom (first + 1) ts

def inspect (t : Tree) : Verdicts EmptyArguments :=
  .ofTest (·.places.isEmpty)
    ((t.visitsOf .call).map fun v => ⟨v.tree.token, placesFrom 0 v.tree.arguments⟩)

end EmptyArguments

/-- A call with its number of arguments and the arity that its name is declared with. -/
structure ArgumentCount where
  call : Token
  actual : Nat
  expected : Option Arity
deriving DecidableEq

namespace ArgumentCount

def isValid (c : ArgumentCount) : Bool := c.expected.any (·.accepts c.actual)

def diagnostic (c : ArgumentCount) : Diagnostic :=
  let name := c.call.text
  let place := c.call.whereabouts
  match c.expected with
  | none =>
    let message :=
      s!"`{name}`{place} is called with {c.actual} arguments but has no declared arity"
    ((Diagnostic.coded .argumentCount message).pointing c.call.span
      "undeclared function").advising s!"declare the number of arguments `{name}` takes"
  | some expected =>
    let message := s!"`{name}`{place} takes {expected} arguments but {c.actual} were supplied"
    (Diagnostic.coded .argumentCount message).pointing c.call.span
      s!"expected {expected} arguments"

def inspect (contracts : Contracts) (t : Tree) : Verdicts ArgumentCount :=
  .ofTest isValid ((t.visitsOf .call).map fun v =>
    ⟨v.tree.token, v.tree.arguments.length, contracts.arity? v.tree.token.text⟩)

end ArgumentCount

end Reckon
