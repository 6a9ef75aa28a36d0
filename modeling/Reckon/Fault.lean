import Reckon.Diagnostic
import Reckon.Tree.Basic

/-!
# Structural faults

The ways in which tokens can fail to make a tree.
-/

namespace Reckon

inductive Fault where
  /-- A closing parenthesis that nothing opened; `opening` is how the dialect writes the other. -/
  | unmatchedClose (close : Token) (opening : Char)
  | unclosedGroup (opener : Token) (closing : Char)
  | unclosedCall (call : Token) (closing : Char)
  /-- Several operands, from left to right, that nothing joins. -/
  | residual (operands : List Tree)
  | empty
deriving DecidableEq

namespace Fault

def code : Fault → Code
  | unmatchedClose .. => .unmatchedClose
  | unclosedGroup .. => .unclosedGroup
  | unclosedCall .. => .unclosedGroup
  | residual _ => .residualOperands
  | empty => .emptyExpression

def message : Fault → String
  | unmatchedClose .. => "unmatched close parenthesis"
  | unclosedGroup .. => "unclosed parenthesis"
  | unclosedCall call _ => s!"unclosed call to `{call.text}`"
  | residual operands => s!"expression has {operands.length} operands that no operator connects"
  | empty => "empty expression"

def help : Fault → String
  | unmatchedClose _ opening => s!"remove it or add a matching `{opening}` before it"
  | unclosedGroup _ closing => s!"add a matching `{closing}`"
  | unclosedCall _ closing => s!"close the argument list with `{closing}`"
  | residual _ => "add an operator or an argument separator between them"
  | empty => "write an operand, an operator or a function call"

/-- Where the fault lies, with a remark for each place. -/
def places : Fault → List (Option Span × String)
  | unmatchedClose close _ => [(close.span, "no open parenthesis to close")]
  | unclosedGroup opener _ => [(opener.span, "opened here")]
  | unclosedCall call _ => [(call.span, "call starts here")]
  | residual operands => operands.map fun t => (t.span, s!"operand `{t.render}`")
  | empty => []

def diagnostic (f : Fault) : Diagnostic :=
  let bare := (Diagnostic.coded f.code f.message).advising f.help
  f.places.foldl (fun d place => d.pointing place.1 place.2) bare

end Fault

end Reckon
