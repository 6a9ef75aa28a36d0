import Reckon.Term.Binder
import Reckon.Term.Schedule
import Reckon.Tree.Walks

/-!
# Computing in a row

`Arena.compute` computes the nodes of an arena from front to back.  It finds the nodes to be
computed from the calls of a binding, not from the shape of the tree.  Values are kept by the numbers
of their nodes; a call takes the values of its operands out of their slots.
-/

namespace Reckon

variable {D : Domain}

namespace Binding

/-- What the call of node `id` is bound to, with the nodes of its operands. -/
def call? (binding : Binding D) (id : Nat) : Option (Overload D × List Nat) :=
  binding.calls[id]?.join

/-- The nodes that the call of node `id` takes values from. -/
def operandsOf (binding : Binding D) (id : Nat) : List Nat :=
  match binding.call? id with
  | some (_, operands) => operands
  | none => []

end Binding

namespace Arena

/-- The token that is blamed when the value of a node is not there: for a placeholder, the one
above it. -/
def ownerOf (a : Arena) (id : Nat) : Option Token :=
  match a.token? id with
  | some t => if t.isMissing then (a.parent? id).bind a.token? else some t
  | none => none

/-- What is told when the function of a call fails. -/
def failedAt (a : Arena) (id : Nat) (t : Token) (reason : String) : Diagnostic :=
  (Diagnostic.coded .calculationFailed s!"`{t.text}` failed: {reason}").pointing (a.spanAt? id).join
    "while computing this"

section

variable (env : Environment D) (binding : Binding D) (a : Arena)

/-- Computes a call from the values of its operands, which it takes. -/
def computeCall (values : Slots D) (t : Token) (id : Nat) :
    Except Diagnostic (D.Value × Slots D) :=
  match binding.call? id with
  | none => .error (EvalFault.unresolved t).diagnostic
  | some (overload, operands) =>
    match values.takeAll (operands.map fun operand => ⟨operand, a.ownerOf operand⟩) with
    | .error fault => .error fault.diagnostic
    | .ok (arguments, values) =>
      match overload.run arguments ⟨t.text, t.position⟩ with
      | .ok v => .ok (v, values)
      | .error reason => .error (a.failedAt id t reason)

/-- Computes the value of node `id`, and tells which values are left. -/
def computeNode (values : Slots D) (t : Token) (id : Nat) : Except Diagnostic (D.Value × Slots D) :=
  match t.kind with
  | .literal =>
    match D.readLiteral t.text with
    | some v => .ok (v, values)
    | none => .error (EvalFault.invalidLiteral t).diagnostic
  | .identifier =>
    match env.get? t.text with
    | some v => .ok (v, values)
    | none => .error (EvalFault.unbound t).diagnostic
  | .missing => .error (EvalFault.missing (a.ownerOf id)).diagnostic
  | .separator => .error (EvalFault.orphanSeparator t).diagnostic
  | .operator | .unary | .call | .opening | .closing => computeCall binding a values t id

/-- Puts the value of one more node into its slot. -/
def computeNext (values : Slots D) (x : Node × Nat) : Except Diagnostic (Slots D) :=
  match computeNode env binding a values x.1.token x.2 with
  | .ok (v, values) => .ok (values.setIfInBounds x.2 (some v))
  | .error told => .error told

end

/-- The nodes that the root reaches through the calls of a binding. -/
def called (a : Arena) (binding : Binding D) : Array Bool :=
  mark binding.operandsOf a.nodes.size [a.root] (Array.replicate a.nodes.size false)

/-- The value of an expression whose calls are bound. -/
def compute (a : Arena) (env : Environment D) (binding : Binding D) : Except Diagnostic D.Value :=
  let marked := a.called binding
  let nodes := a.nodes.toList.zipIdx.filter fun x => marked[x.2]? = some true
  match nodes.foldlM (computeNext env binding a) (Array.replicate a.nodes.size none) with
  | .error told => .error told
  | .ok values =>
    match values[a.root]?.join with
    | some v => .ok v
    | none => .error (EvalFault.missing (a.ownerOf a.root)).diagnostic

end Arena

end Reckon
