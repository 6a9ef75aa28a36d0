import Reckon.Call.Inputs
import Reckon.Call.Rule
import Reckon.Domain
import Reckon.Span

/-!
# Callables

Functions and operators alike are callables: a name and a list of overloads, each with the shape of
its inputs, the kind of its result and the function that computes it.
-/

namespace Reckon

/-- An argument before it has a value: its kind, and its text if it is a literal or a variable. -/
structure Argument (κ : Type) where
  kind : κ
  text : Option String
deriving DecidableEq

/-- Where a call stands: the name it is written with and the offset of that name. -/
structure CallSite where
  name : String
  position : Option Nat
deriving DecidableEq

structure Overload (D : Domain) where
  inputs : Inputs D.Kind
  output : D.Kind
  /-- Refuses calls of the right shape, with a reason. -/
  validate : List (Argument D.Kind) → Except String Unit := fun _ => .ok ()
  run : List D.Value → CallSite → Except String D.Value

namespace Overload

variable {D : Domain}

def describe (o : Overload D) (name : String) : String :=
  s!"{name}({o.inputs.describe D.kindLabel}) -> {D.kindLabel o.output}"

/-- Whether arguments of these kinds fit the overload. -/
def accepts (o : Overload D) (lenient : Bool) (kinds : List D.Kind) : Bool :=
  o.inputs.accepts D.assignable lenient kinds

end Overload

structure Callable (D : Domain) where
  name : String
  aliases : List String := []
  overloads : List (Overload D)
  values : List (Scoped ValueRule) := []
  formats : List (Scoped FormatRule) := []
  /-- Refuses calls whichever overload is meant, with a reason. -/
  validate : List (Argument D.Kind) → Except String Unit := fun _ => .ok ()

namespace Callable

variable {D : Domain}

/-- The name and the aliases. -/
def names (c : Callable D) : List String := c.name :: c.aliases

/-- The narrowest arity that covers all overloads. -/
def arity? (c : Callable D) : Option Arity :=
  match c.overloads with
  | [] => none
  | o :: os => some (os.foldl (fun a o => a.merge o.inputs.arity) o.inputs.arity)

end Callable

end Reckon
