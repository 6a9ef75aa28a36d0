import Reckon.OrderedMap
import Reckon.Term.Typing

/-!
# Evaluation

Computes the value of a bound term: operands from left to right, then the call.  The first call
that fails ends the evaluation.
-/

namespace Reckon

/-- The values of variables, in the order in which they were first set. -/
abbrev Environment (D : Domain) := OrderedMap D.Value

/-- The kind of a variable's value. -/
def OrderedMap.kindOf? {D : Domain} (env : Environment D) (name : String) : Option D.Kind :=
  (env.get? name).map D.kindOf

inductive EvalFault where
  | invalidLiteral (literal : Token)
  | unbound (name : Token)
  /-- A value is not there when it is needed; `owner` is the token that is blamed. -/
  | missing (owner : Option Token)
  | orphanSeparator (separator : Token)
  /-- A token that needs an overload has none. -/
  | unresolved (token : Token)
  /-- The function of a call failed; `tree` is the call. -/
  | failed (tree : Tree) (reason : String)
deriving DecidableEq

def EvalFault.diagnostic : EvalFault → Diagnostic
  | invalidLiteral t => (TypeFault.invalidLiteral t).diagnostic
  | unbound t => TypeFault.unboundDiagnostic t
  | missing owner => (TypeFault.missingOperand owner).diagnostic
  | orphanSeparator t => (TypeFault.orphanSeparator t).diagnostic
  | unresolved t =>
    (Diagnostic.coded .undeclaredCallable s!"`{t.text}` is not bound to a syntax").pointing t.span
      "not bound"
  | failed tree reason =>
    (Diagnostic.coded .calculationFailed s!"`{tree.token.text}` failed: {reason}").pointing
      tree.span "while computing this"

namespace Bound

variable {D : Domain} (env : Environment D)

/-- Runs the function of a call. -/
def runCall (tree : Tree) (overload : Overload D) (values : List D.Value) :
    Except EvalFault D.Value :=
  match overload.run values ⟨tree.token.text, tree.token.position⟩ with
  | .ok v => .ok v
  | .error reason => .error (.failed tree reason)

mutual

def eval : Bound D → Except EvalFault D.Value
  | .value v => .ok v
  | .name t =>
    match env.get? t.text with
    | some v => .ok v
    | none => .error (.unbound t)
  | .call tree overload operands =>
    match evalAll operands with
    | .ok values => runCall tree overload values
    | .error fault => .error fault

def evalAll : List (Bound D) → Except EvalFault (List D.Value)
  | [] => .ok []
  | b :: bs =>
    match eval b with
    | .ok v =>
      match evalAll bs with
      | .ok vs => .ok (v :: vs)
      | .error fault => .error fault
    | .error fault => .error fault

end

end Bound

end Reckon
