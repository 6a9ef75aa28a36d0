import Reckon.Dialect
import Reckon.Tree.Basic

/-!
# Precedence climbing

The grammar of expressions, and the tree that a reader who climbs precedences makes of one
(`Climbing.tree?`).  While an operator is pending, its operand absorbs every binary operator and
every operator behind its operand, up to the first one that the pending operator outranks.
-/

namespace Reckon

namespace Dialect

variable (d : Dialect)

/-! ## Declared operators -/

/-- A declared unary operator that stands before its operand. -/
def isBefore (t : Token) : Bool := t.kind == .unary && (d.unary? t.text).any (·.side == .before)

/-- A declared unary operator that stands behind its operand. -/
def isAfter (t : Token) : Bool := t.kind == .unary && (d.unary? t.text).any (·.side == .after)

/-- A declared operator between two operands, or a separator. -/
def isBetween (t : Token) : Bool :=
  t.kind == .separator || (t.kind == .operator && (d.operator? t.text).isSome)

section Kinds

variable {d} {t : Token}

theorem isBetween_kind (h : d.isBetween t) :
    t.kind = .separator ∨ t.kind = .operator ∧ ∃ op, d.operator? t.text = some op := by
  simpa [isBetween, Option.isSome_iff_exists] using h

theorem isBefore_kind (h : d.isBefore t) :
    t.kind = .unary ∧ ∃ op, d.unary? t.text = some op ∧ op.side = .before := by
  simpa [isBefore, Option.any_eq_true] using h

theorem isAfter_kind (h : d.isAfter t) :
    t.kind = .unary ∧ ∃ op, d.unary? t.text = some op ∧ op.side = .after := by
  simpa [isAfter, Option.any_eq_true] using h

end Kinds

/-- The priority that a token is declared with; that of a separator is derived. -/
def priorityOf (t : Token) : Int :=
  match t.kind with
  | .operator => ((d.operator? t.text).map (·.priority.toInt)).getD 0
  | .unary => ((d.unary? t.text).map (·.priority.toInt)).getD 0
  | _ => d.separatorPriority

/-- Whether equal priorities group to the left: as declared, and behind an operand always. -/
def groupsLeft (t : Token) : Bool :=
  match t.kind with
  | .operator => (d.operator? t.text).any (·.leftAssociative)
  | .unary => d.isAfter t
  | _ => false

/-- Whether the pending operator `c` keeps its operand from the next operator `n`. -/
def outranks (c n : Token) : Bool :=
  decide (d.priorityOf n < d.priorityOf c) ||
    (d.priorityOf c == d.priorityOf n && d.groupsLeft n && !d.isBefore c)

/-! ## The grammar -/

mutual

/-- Operands with operators between them. -/
inductive Infix : List Token → Prop
  | last {ts : List Token} (h : Item ts) : Infix ts
  | more {ts us : List Token} {t : Token} (h : Item ts) (ht : d.isBetween t) (rest : Infix us) :
      Infix (ts ++ t :: us)

/-- An operand with the unary operators on both sides of it. -/
inductive Item : List Token → Prop
  | mk {pre ts post : List Token} (hpre : ∀ t ∈ pre, d.isBefore t) (h : Primary ts)
      (hpost : ∀ t ∈ post, d.isAfter t) : Item (pre ++ (ts ++ post))

/-- A name, a number, a group or a call. -/
inductive Primary : List Token → Prop
  | atom {t : Token} (h : t.kind = .literal ∨ t.kind = .identifier) : Primary [t]
  | group {o c : Token} {ts : List Token} (ho : o.kind = .opening) (h : Infix ts)
      (hc : c.kind = .closing) : Primary (o :: (ts ++ [c]))
  | call {f c : Token} {ts : List Token} (hf : f.kind = .call) (h : Infix ts)
      (hc : c.kind = .closing) : Primary (f :: (ts ++ [c]))
  | bareCall {f c : Token} (hf : f.kind = .call) (hc : c.kind = .closing) : Primary [f, c]

end

end Dialect

/-! ## Climbing -/

namespace Climbing

/-- What follows a closing parenthesis that comes next. -/
def closed? : List Token → Option (List Token)
  | [] => none
  | c :: ts => if c.kind = .closing then some ts else none

/-- The leaf for an operand that is not there. -/
def nothing : Tree := .leaf .placeholder

variable (d : Dialect)

mutual

/-- Reads an operand and what the pending operator leaves to it; the result is its tree and the
tokens behind it.  The fuel bounds the number of turns. -/
def climb : Nat → Option Token → List Token → Option (Tree × List Token)
  | 0, _, _ => none
  | fuel + 1, pending, ts =>
    match operand fuel ts with
    | some (first, rest) => absorb fuel pending first rest
    | none => none

/-- Reads an operand by itself. -/
def operand : Nat → List Token → Option (Tree × List Token)
  | 0, _ => none
  | _ + 1, [] => none
  | fuel + 1, t :: ts =>
    match t.kind with
    | .literal | .identifier => some (.leaf t, ts)
    | .unary =>
      if d.isBefore t then (climb fuel (some t) ts).map fun r => (.node t nothing r.1, r.2)
      else none
    | .opening => do
      let (inner, rest) ← climb fuel none ts
      return (inner, ← closed? rest)
    | .call =>
      match closed? ts with
      | some rest => some (.node t nothing nothing, rest)
      | none => do
        let (inner, rest) ← climb fuel none ts
        return (.node t nothing inner, ← closed? rest)
    | .operator | .closing | .separator | .missing => none

/-- Lets the operand `left` absorb the operators behind it that the pending one does not outrank. -/
def absorb : Nat → Option Token → Tree → List Token → Option (Tree × List Token)
  | 0, _, _, _ => none
  | _ + 1, _, left, [] => some (left, [])
  | fuel + 1, pending, left, n :: ts =>
    if pending.any (d.outranks · n) then some (left, n :: ts)
    else if d.isBetween n then
      match climb fuel (some n) ts with
      | some (right, rest) => absorb fuel pending (.node n left right) rest
      | none => none
    else if d.isAfter n then absorb fuel pending (.node n left nothing) ts
    else some (left, n :: ts)

end

/-- The tree that climbing makes of all tokens. -/
def tree? (ts : List Token) : Option Tree :=
  match climb d (2 * ts.length + 2) none ts with
  | some (tree, []) => some tree
  | _ => none

end Climbing

end Reckon
