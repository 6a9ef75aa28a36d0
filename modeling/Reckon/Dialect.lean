import Reckon.Regex.Reader
import Reckon.Token

/-!
# Dialects

A dialect says how expressions are spelled: patterns for names and literals, the two parentheses,
the separator of arguments, and the operators with their priorities.  `Dialect.Spec` is what a user
declares, `Dialect.build` turns it into a dialect or says which declarations clash.
-/

namespace Reckon

/-- An operator between two operands. -/
structure Operator where
  name : String
  priority : Int32
  leftAssociative : Bool
deriving DecidableEq

/-- On which side of its operand an operator with one operand stands. -/
inductive Side where
  | before
  | after
deriving DecidableEq

/-- An operator with one operand. -/
structure UnaryOperator where
  name : String
  priority : Int32
  side : Side
deriving DecidableEq

structure Dialect where
  identifier : Regex
  literal : Regex
  /-- A name and the parenthesis behind it, captured as `name` and `paren`. -/
  call : Regex
  opening : Char
  closing : Char
  separator : String
  operators : List Operator
  unaries : List UnaryOperator

namespace Dialect

/-- What a user declares. -/
structure Spec where
  identifier : String
  literal : String
  opening : Char
  closing : Char
  separator : String
  operators : List Operator
  unaries : List UnaryOperator

/-- The usual names, numbers, parentheses and comma, without operators. -/
def Spec.bare : Spec where
  identifier := "\\b[A-Za-z_][A-Za-z0-9_]*\\b"
  literal := "\\b[0-9]+(?:\\.[0-9]+)?\\b"
  opening := '('
  closing := ')'
  separator := ","
  operators := []
  unaries := []

/-- The usual spelling with the operators of arithmetic. -/
def Spec.standard : Spec where
  identifier := Spec.bare.identifier
  literal := Spec.bare.literal
  opening := '('
  closing := ')'
  separator := ","
  operators :=
    [⟨"+", 1, true⟩, ⟨"-", 1, true⟩, ⟨"*", 2, true⟩, ⟨"/", 2, true⟩, ⟨"%", 2, true⟩,
      ⟨"^", 4, false⟩]
  unaries := [⟨"-", 3, .before⟩, ⟨"+", 3, .before⟩, ⟨"!", 5, .after⟩]

/-! ### Building -/

inductive PatternRole where
  | identifier
  | literal
  | call
deriving DecidableEq

def PatternRole.label : PatternRole → String
  | identifier => "identifier"
  | literal => "literal"
  | call => "function call"

inductive Clash where
  | badPattern (role : PatternRole)
  | duplicateOperator (name : String)
  | emptyOperator
  | emptySeparator
  | sharedSymbol (symbol : String)
deriving DecidableEq

def Clash.message : Clash → String
  | badPattern role => s!"invalid {role.label} pattern"
  | duplicateOperator name => s!"operator `{name}` is declared more than once"
  | emptyOperator => "operator names must not be empty"
  | emptySeparator => "the argument separator must not be empty"
  | sharedSymbol symbol => s!"symbol `{symbol}` is used for more than one purpose"

def readPattern (role : PatternRole) (text : String) : Except Clash Regex :=
  match Regex.read text with
  | .ok r => .ok r
  | .error _ => .error (.badPattern role)

/-- The pattern of a call wraps the name in groups, so the name may not use their names. -/
def callPattern (identifier : Regex) (opening : Char) : Except Clash Regex :=
  let names := identifier.groupNames
  if names.contains "name" || names.contains "paren" then .error (.badPattern .call)
  else .ok (.seq (.named "name" identifier) (.named "paren" (.one (.char opening))))

def checkSeparator (s : Spec) : Except Clash Unit :=
  let held := s.separator.toList
  if held.isEmpty then .error .emptySeparator
  else if s.opening = s.closing then .error (.sharedSymbol s.opening.toString)
  else if held.contains s.opening then .error (.sharedSymbol s.opening.toString)
  else if held.contains s.closing then .error (.sharedSymbol s.closing.toString)
  else .ok ()

/-- An operator's name must not be empty, be the separator, or hold a parenthesis. -/
def checkName (s : Spec) (name : String) : Except Clash Unit :=
  if name.isEmpty then .error .emptyOperator
  else if name = s.separator ∨ s.opening ∈ name.toList ∨ s.closing ∈ name.toList then
    .error (.sharedSymbol name)
  else .ok ()

/-- Checks names in turn; `earlier` holds those that have passed. -/
def checkNames (s : Spec) (earlier : List String) : List String → Except Clash Unit
  | [] => .ok ()
  | name :: names => do
    checkName s name
    if name ∈ earlier then .error (.duplicateOperator name)
    checkNames s (name :: earlier) names

/-- The dialect that a declaration describes. -/
def build (s : Spec) : Except Clash Dialect := do
  let identifier ← readPattern .identifier s.identifier
  let literal ← readPattern .literal s.literal
  let call ← callPattern identifier s.opening
  checkSeparator s
  checkNames s [] (s.operators.map (·.name))
  checkNames s [] (s.unaries.map (·.name))
  return ⟨identifier, literal, call, s.opening, s.closing, s.separator, s.operators, s.unaries⟩

/-! ### Look-up -/

variable (d : Dialect)

def operator? (name : String) : Option Operator := d.operators.find? (·.name == name)

def unary? (name : String) : Option UnaryOperator := d.unaries.find? (·.name == name)

/-- Whether the text names an operator of either sort. -/
def isOperatorName (text : String) : Bool := (d.operator? text).isSome || (d.unary? text).isSome

/-- On which side of its operand a unary operator stands; one that is not declared stands before
it. -/
def sideOf (name : String) : Side :=
  match d.unary? name with
  | some op => op.side
  | none => .before

/-- Smallest value of a priority. -/
def lowestPriority : Int := Int32.minValue.toInt

/-- Every priority that is declared. -/
def priorities : List Int :=
  d.operators.map (·.priority.toInt) ++ d.unaries.map (·.priority.toInt)

/-- The separator binds one step looser than all operators, as far as priorities reach. -/
def separatorPriority : Int := max (d.priorities.min?.getD 0 - 1) lowestPriority

end Dialect

end Reckon
