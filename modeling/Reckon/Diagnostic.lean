import Reckon.Span
import Reckon.Text

/-!
# Diagnostics

A diagnostic tells one problem of an expression: a message, a code when the problem has one, labels
that point into the text, and advice.
-/

namespace Reckon

inductive Severity where
  | error
  | warning
deriving DecidableEq

def Severity.label : Severity → String
  | error => "error"
  | warning => "warning"

/-! ### Codes -/

/-- The problems that have a code. -/
inductive Code where
  | unmatchedClose
  | unclosedGroup
  | residualOperands
  | emptyExpression
  | unbalancedParenthesis
  | missingOperand
  | emptyArgument
  | argumentCount
  | orphanSeparator
  | unknownVariable
  | unknownFunction
  | noMatchingOverload
  | valueNotAllowed
  | formatNotAllowed
  | rejectedByOverload
  | rejectedByCallable
  | undeclaredCallable
  | unboundVariable
  | invalidLiteral
  | calculationFailed
  | missingOperandAtEvaluation
deriving DecidableEq

namespace Code

/-- The number of a code; its first digit tells the stage that found the problem. -/
def number : Code → Nat
  | unmatchedClose => 100
  | unclosedGroup => 101
  | residualOperands => 102
  | emptyExpression => 103
  | unbalancedParenthesis => 200
  | missingOperand => 201
  | emptyArgument => 202
  | argumentCount => 203
  | orphanSeparator => 204
  | unknownVariable => 205
  | unknownFunction => 206
  | noMatchingOverload => 300
  | valueNotAllowed => 301
  | formatNotAllowed => 302
  | rejectedByOverload => 303
  | rejectedByCallable => 304
  | undeclaredCallable => 305
  | unboundVariable => 400
  | invalidLiteral => 401
  | calculationFailed => 402
  | missingOperandAtEvaluation => 403

def label (c : Code) : String := s!"E{c.number}"

def description : Code → String
  | unmatchedClose => "unmatched close parenthesis"
  | unclosedGroup => "unclosed parenthesis or function call"
  | residualOperands => "residual operands"
  | emptyExpression => "empty expression"
  | unbalancedParenthesis => "unbalanced parenthesis"
  | missingOperand => "missing operand"
  | emptyArgument => "empty function argument"
  | argumentCount => "wrong number of arguments"
  | orphanSeparator => "orphan argument separator"
  | unknownVariable => "unknown variable"
  | unknownFunction => "unknown function"
  | noMatchingOverload => "no matching syntax"
  | valueNotAllowed => "value not allowed"
  | formatNotAllowed => "format not allowed"
  | rejectedByOverload => "rejected by syntax validator"
  | rejectedByCallable => "rejected by function validator"
  | undeclaredCallable => "undeclared callable"
  | unboundVariable => "unbound variable"
  | invalidLiteral => "invalid literal"
  | calculationFailed => "calculation failed"
  | missingOperandAtEvaluation => "missing operand at evaluation"

/-- Problems found while the tree is built. -/
def isStructural (c : Code) : Bool := c.number / 100 == 1

/-- Every code, in ascending order. -/
def all : List Code :=
  [unmatchedClose, unclosedGroup, residualOperands, emptyExpression, unbalancedParenthesis,
    missingOperand, emptyArgument, argumentCount, orphanSeparator, unknownVariable,
    unknownFunction, noMatchingOverload, valueNotAllowed, formatNotAllowed, rejectedByOverload,
    rejectedByCallable, undeclaredCallable, unboundVariable, invalidLiteral, calculationFailed,
    missingOperandAtEvaluation]

theorem mem_all (c : Code) : c ∈ all := by cases c <;> decide

end Code

/-! ### Labels -/

inductive LabelRole where
  | primary
  | secondary
deriving DecidableEq

/-- A remark on a stretch of the text. -/
structure Label where
  role : LabelRole
  span : Span
  message : String
deriving DecidableEq

/-- The text under a span, if the span lies inside the text and cuts no character. -/
def Span.covered (s : Span) (source : String) : Option String :=
  ((Text.dropWidth s.start source.toList).bind (Text.takeWidth s.length)).map String.ofList

/-! ### Diagnostics -/

structure Diagnostic where
  severity : Severity
  code : Option Code
  message : String
  labels : List Label
  help : Option String
deriving DecidableEq

namespace Diagnostic

/-- An error without code, labels or help. -/
def plain (message : String) : Diagnostic := ⟨.error, none, message, [], none⟩

/-- An error with a code. -/
def coded (code : Code) (message : String) : Diagnostic := ⟨.error, some code, message, [], none⟩

/-- Adds a primary label, if there is a span to put it on. -/
def pointing (d : Diagnostic) (span : Option Span) (message : String) : Diagnostic :=
  match span with
  | some span => { d with labels := d.labels ++ [⟨.primary, span, message⟩] }
  | none => d

def advising (d : Diagnostic) (help : String) : Diagnostic := { d with help := some help }

def isError (d : Diagnostic) : Bool := d.severity == .error

/-- The span of the first primary label. -/
def primarySpan (d : Diagnostic) : Option Span :=
  (d.labels.find? fun label => label.role == .primary).map (·.span)

/-- One line: severity, code in brackets, message. -/
def headline (d : Diagnostic) : String :=
  match d.code with
  | some code => s!"{d.severity.label}[{code.label}]: {d.message}"
  | none => s!"{d.severity.label}: {d.message}"

/-- One line for a list: the first headline and how many more there are. -/
def summary : List Diagnostic → String
  | [] => ""
  | [d] => d.headline
  | d :: ds => s!"{d.headline} (+{ds.length} more)"

/-- The codes that a list holds, in ascending order. -/
def codesOf (ds : List Diagnostic) : List Code :=
  Code.all.filter fun code => ds.any fun d => d.code == some code

/-- A list with an error in it is refused as a whole; warnings alone pass. -/
def settle (ds : List Diagnostic) : Except (List Diagnostic) Unit :=
  if ds.any isError then .error ds else .ok ()

end Diagnostic

end Reckon
