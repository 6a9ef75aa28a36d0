import Reckon.Call.Resolve
import Reckon.Term.Basic

/-!
# Typing

`Term.bind` gives every call of a term the overload that it takes and infers the kind of the result.
It goes on after a fault, so that every fault is told, each where it lies: a call whose operands
failed is not blamed for it.
-/

namespace Reckon

inductive TypeFault where
  | invalidLiteral (literal : Token)
  | unbound (name : Token)
  /-- An operand is missing at its owner. -/
  | missingOperand (owner : Option Token)
  | orphanSeparator (separator : Token)
  | alien (token : Token)
  | undeclared (sort : CallSort) (name : Token)
  | refused (refusal : Refusal) (site : Option Span)
deriving DecidableEq

namespace TypeFault

/-- What is told about a variable without value, by the typing as well as by the evaluation. -/
def unboundDiagnostic (name : Token) : Diagnostic :=
  ((Diagnostic.coded .unboundVariable s!"variable `{name.text}` has no value").pointing
    name.span "unbound").advising s!"bind `{name.text}` before evaluating"

def diagnostic : TypeFault → Diagnostic
  | invalidLiteral t =>
    (Diagnostic.coded .invalidLiteral s!"`{t.text}` is not a valid literal").pointing t.span
      "cannot be read as a value"
  | unbound t => unboundDiagnostic t
  | missingOperand owner =>
    (Diagnostic.coded .missingOperandAtEvaluation "expression has a missing operand").pointing
      (owner.bind Token.span) "operand missing here"
  | orphanSeparator t =>
    (Diagnostic.coded .orphanSeparator
      s!"argument separator `{t.text}` outside of a function call").pointing t.span
      "not inside a call"
  | alien t =>
    (Diagnostic.plain s!"unexpected `{t.text}` in expression tree").pointing t.span "unexpected"
  | undeclared sort t =>
    (Diagnostic.coded .undeclaredCallable
      s!"{sort.label} `{t.text}` has no implementation").pointing t.span
      "not declared in the catalog"
  | refused refusal site => refusal.diagnostic site

end TypeFault

/-- A term whose calls are resolved. -/
inductive Bound (D : Domain) where
  | value (v : D.Value)
  | name (token : Token)
  | call (tree : Tree) (overload : Overload D) (operands : List (Bound D))

/-- A bound term with the kind of its value. -/
structure Typed (D : Domain) where
  bound : Bound D
  kind : D.Kind

/-- What typing depends on. -/
structure Typing (D : Domain) where
  catalog : Catalog D
  /-- The kind of a variable, if it has a value. -/
  kindOf : String → Option D.Kind
  /-- Whether kinds may stand for others where no overload takes them as they are. -/
  lenient : Bool

namespace CallSort

/-- The least number of operands of a call with `count` of them. -/
def wanted (count : Nat) : CallSort → Nat
  | operator => 2
  | unary => 1
  | function => count

end CallSort

namespace Typing

variable {D : Domain} (s : Typing D)

/-- Resolves with the kinds as they are and, if that finds no overload, with assignable kinds. -/
def choose (c : Callable D) (arguments : List (Argument D.Kind)) : Except Refusal (Choice D) :=
  match c.resolve arguments false with
  | .ok choice => .ok choice
  | .error refusal =>
    if refusal.isNoMatch && s.lenient then c.resolve arguments true else .error refusal

/-- The arguments that overload resolution sees. -/
def argumentsOf (operands : List Term) (typed : List (Typed D)) : List (Argument D.Kind) :=
  (operands.zip typed).map fun p => ⟨p.2.kind, p.1.argumentText⟩

/-- Types a call whose operands are typed. -/
def bindCall (sort : CallSort) (tree : Tree) (operands : List Term) (typed : List (Typed D)) :
    Except (List TypeFault) (Typed D) :=
  match s.catalog.callable? sort tree.token.text with
  | none => .error [.undeclared sort tree.token]
  | some c =>
    match s.choose c (argumentsOf operands typed) with
    | .error refusal => .error [.refused refusal tree.token.span]
    | .ok choice =>
      .ok ⟨.call tree choice.overload (typed.map (·.bound)), choice.overload.output⟩

mutual

def bind : Term → Except (List TypeFault) (Typed D)
  | .literal t =>
    match D.readLiteral t.text with
    | some v => .ok ⟨.value v, D.kindOf v⟩
    | none => .error [.invalidLiteral t]
  | .name t =>
    match s.kindOf t.text with
    | some kind => .ok ⟨.name t, kind⟩
    | none => .error [.unbound t]
  | .absent owner => .error [.missingOperand owner]
  | .stray t => .error [.orphanSeparator t]
  | .alien t => .error [.alien t]
  | .call sort tree operands =>
    let short := operands.length < sort.wanted operands.length
    match bindAll operands with
    | .ok typed =>
      if short then .error [.missingOperand (some tree.token)]
      else s.bindCall sort tree operands typed
    | .error faults =>
      .error (if short then faults ++ [.missingOperand (some tree.token)] else faults)

/-- Types operands from left to right and collects the faults of all. -/
def bindAll : List Term → Except (List TypeFault) (List (Typed D))
  | [] => .ok []
  | t :: ts =>
    match bind t, bindAll ts with
    | .ok typed, .ok more => .ok (typed :: more)
    | .ok _, .error faults => .error faults
    | .error faults, .ok _ => .error faults
    | .error faults, .error more => .error (faults ++ more)

end

end Typing

end Reckon
