import Reckon.Call.Arity
import Reckon.Text

/-!
# Input shapes

The kinds of arguments that an overload takes.  Sets of kinds are lists without repetition, in the
order in which they were declared.
-/

namespace Reckon

/-- Any number of arguments of the `middle` kinds, at least `least`, between an optional first and
an optional last one. -/
structure Variadic (κ : Type) where
  first : Option (List κ)
  middle : List κ
  last : Option (List κ)
  least : Nat

inductive Inputs (κ : Type) where
  | nullary
  | fixed (positions : List (List κ))
  | variadic (v : Variadic κ)

variable {κ : Type}

/-- The number of ends that are declared. -/
def Variadic.ends (v : Variadic κ) : Nat := v.first.toList.length + v.last.toList.length

namespace Inputs

def arity : Inputs κ → Arity
  | nullary => .fixed 0
  | fixed positions => .fixed positions.length
  | variadic v => if v.middle.isEmpty then .fixed v.ends else .atLeast (v.ends + v.least)

variable [DecidableEq κ]

/-- One argument for each set of kinds. -/
def ofPositions (positions : List (List κ)) : Inputs κ := fixed (positions.map List.eraseDups)

/-- Any number of arguments, by the sets of kinds for the ends and the middle. -/
def ofEnds (first : Option (List κ)) (middle : List κ) (last : Option (List κ)) (least : Nat) :
    Inputs κ :=
  variadic ⟨first.map List.eraseDups, middle.eraseDups, last.map List.eraseDups, least⟩

/-! ### Description -/

omit [DecidableEq κ] in
def describeSet (label : κ → String) (kinds : List κ) : String :=
  if kinds.isEmpty then "none" else Text.joinWith " | " (kinds.map label)

/-- How often the middle may come. -/
def describeTurns : Nat → String
  | 0 => "*"
  | 1 => "+"
  | n => "\x7b" ++ s!"{n}," ++ "\x7d"

omit [DecidableEq κ] in
def describe (label : κ → String) : Inputs κ → String
  | nullary => ""
  | fixed positions => Text.joinWith ", " (positions.map (describeSet label))
  | variadic v =>
    let middle :=
      if v.middle.isEmpty then []
      else [s!"({describeSet label v.middle}){describeTurns v.least}"]
    Text.joinWith ", " <|
      (v.first.toList.map (describeSet label)) ++ middle ++
        (v.last.toList.map (describeSet label))

/-! ### Fitting -/

/-- Whether a kind fits a set: it is a member or, if `lenient`, may stand for a member. -/
def fitsSet (assignable : κ → κ → Bool) (lenient : Bool) (kinds : List κ) (kind : κ) : Bool :=
  kinds.contains kind || (lenient && kinds.any (assignable kind))

/-- Takes off one argument of an optional end. -/
def takeEnd (fits : List κ → κ → Bool) : Option (List κ) → List κ → Option (List κ)
  | none, kinds => some kinds
  | some _, [] => none
  | some set, kind :: kinds => if fits set kind then some kinds else none

/-- Whether arguments of these kinds fit the shape. -/
def accepts (assignable : κ → κ → Bool) (lenient : Bool) (inputs : Inputs κ) (kinds : List κ) :
    Bool :=
  let fits := fitsSet assignable lenient
  match inputs with
  | nullary => kinds.isEmpty
  | fixed positions =>
    positions.length == kinds.length && (positions.zip kinds).all fun p => fits p.1 p.2
  | variadic v =>
    let inner := (takeEnd fits v.first kinds).bind fun rest =>
      (takeEnd fits v.last rest.reverse).map List.reverse
    match inner with
    | none => false
    | some middle => decide (v.least ≤ middle.length) && middle.all (fits v.middle)

end Inputs

end Reckon
