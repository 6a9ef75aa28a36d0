import Reckon.Dialect
import Reckon.Fault

/-!
# Reverse Polish order

`Polish.ofTokens` puts tokens in reverse Polish order: operands first, then the token that joins
them.  Every token that is no operand joins exactly two, so a placeholder goes out wherever an
operand is not written and for the side that a token leaves unused: the left of a unary operator
before its operand, the right of one behind it, the left of a call.

Operators wait on a stack until one that binds no tighter comes along; an open group or call on the
stack shields what lies below it.
-/

namespace Reckon

/-- How tightly a token binds. -/
structure Rank where
  priority : Int
  leftAssociative : Bool
  /-- Whether it is a unary operator that stands before its operand. -/
  standsBefore : Bool

/-- Whether a waiting operator takes its operand before `current` does. -/
def Rank.outranks (waiting current : Rank) : Bool :=
  decide (current.priority < waiting.priority) ||
    (waiting.priority == current.priority && current.leftAssociative && !waiting.standsBefore)

/-- The rank of a token; what is not declared binds with priority zero. -/
def Dialect.rank (d : Dialect) (t : Token) : Rank :=
  match t.kind with
  | .operator =>
    match d.operator? t.text with
    | some op => ⟨op.priority.toInt, op.leftAssociative, false⟩
    | none => ⟨0, true, false⟩
  | .separator => ⟨d.separatorPriority, false, false⟩
  | .unary =>
    match d.unary? t.text with
    | some op => ⟨op.priority.toInt, op.side == .after, op.side == .before⟩
    | none => ⟨0, true, true⟩
  | .literal | .identifier | .opening | .closing | .call | .missing => ⟨0, true, false⟩

/-- Whether an operand has to come behind this token. -/
def Dialect.expectsOperand (d : Dialect) : Option Token → Bool
  | none => true
  | some previous =>
    match previous.kind with
    | .operator | .separator | .opening | .call => true
    | .unary => (d.rank previous).standsBefore
    | .literal | .identifier | .closing | .missing => false

/-- What has gone out, what waits (the latest first), and the token taken in last. -/
structure Polish where
  output : Array Token
  stack : List Token
  previous : Option Token

namespace Polish

def start : Polish := ⟨#[], [], none⟩

variable (d : Dialect)

/-- Lets the waiting operators go out that outrank `current`, down to the innermost open group. -/
def popOutranked (current : Rank) (output : Array Token) : List Token → Array Token × List Token
  | [] => (output, [])
  | top :: stack =>
    if top.kind.opensGroup then (output, top :: stack)
    else if (d.rank top).outranks current then popOutranked current (output.push top) stack
    else (output, top :: stack)

/-- Ends the innermost group. What waits inside it goes out, and so does the call that opened it. -/
def popGroup (close : Token) (output : Array Token) :
    List Token → Except Fault (Array Token × List Token)
  | [] => .error (.unmatchedClose close d.opening)
  | top :: stack =>
    match top.kind with
    | .opening => .ok (output, stack)
    | .call => .ok (output.push top, stack)
    | _ => popGroup close (output.push top) stack

/-- Lets everything go out that still waits. -/
def popAll (output : Array Token) : List Token → Except Fault (Array Token)
  | [] => .ok output
  | top :: stack =>
    match top.kind with
    | .opening => .error (.unclosedGroup top d.closing)
    | .call => .error (.unclosedCall top d.closing)
    | _ => popAll (output.push top) stack

/-- The output, with a placeholder if an operand is due. -/
def filled (s : Polish) : Array Token :=
  if d.expectsOperand s.previous then s.output.push .placeholder else s.output

/-- Takes in one token. -/
def push (s : Polish) (t : Token) : Except Fault Polish :=
  match t.kind with
  | .literal | .identifier | .missing => .ok ⟨s.output.push t, s.stack, some t⟩
  | .opening => .ok ⟨s.output, t :: s.stack, some t⟩
  | .call => .ok ⟨s.output.push .placeholder, t :: s.stack, some t⟩
  | .closing =>
    let emptyGroup := s.previous.any (·.kind == .opening)
    let output := if emptyGroup then s.output else s.filled d
    match popGroup d t output s.stack with
    | .ok (output, stack) => .ok ⟨output, stack, some t⟩
    | .error e => .error e
  | .operator | .separator =>
    let (output, stack) := popOutranked d (d.rank t) (s.filled d) s.stack
    .ok ⟨output, t :: stack, some t⟩
  | .unary =>
    let rank := d.rank t
    if rank.standsBefore then .ok ⟨s.output.push .placeholder, t :: s.stack, some t⟩
    else
      let (output, stack) := popOutranked d rank (s.filled d) s.stack
      .ok ⟨(output.push .placeholder).push t, stack, some t⟩

/-- Ends the expression. -/
def finish (s : Polish) : Except Fault (Array Token) :=
  popAll d (if s.previous.isSome then s.filled d else s.output) s.stack

/-- The tokens in reverse Polish order. -/
def ofTokens (ts : List Token) : Except Fault (List Token) := do
  let s ← ts.foldlM (push d) start
  return (← s.finish d).toList

end Polish

end Reckon
