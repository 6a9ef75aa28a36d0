import Reckon.Term.Typing
import Reckon.Tree.Arena

/-!
# Binding in a row

`Arena.bind` types the nodes of an arena from front to back, so that the kinds of operands are known
when the node above them comes.  Only nodes that the root reaches are looked at.  A node whose
operands have no kind gets none either and is not blamed for it.
-/

namespace Reckon

namespace Arena

/-! ### Operands -/

/-- The links of a chain of separators that begins with node `id`. -/
def chain (a : Arena) (id : Nat) : List Nat :=
  match a.nodes[id]? with
  | some ⟨token, some left, some right⟩ =>
    -- children stand before the node above them
    if token.kind = .separator ∧ right < id then left :: a.chain right else [id]
  | _ => [id]
termination_by id

def token? (a : Arena) (id : Nat) : Option Token := (a.nodes[id]?).map (·.token)

/-- The arguments of a call; a lone placeholder means that there are none. -/
def arguments (a : Arena) (n : Node) : List Nat :=
  match n.right with
  | none => []
  | some first => if (a.token? first).any (·.isMissing) then [] else a.chain first

/-- What a node calls, and the nodes it takes values from. -/
def operands? (d : Dialect) (a : Arena) (n : Node) : Option (CallSort × List Nat) :=
  match n.token.kind with
  | .operator => some (.operator, n.children)
  | .unary =>
    some <| (.unary, ·) <|
      match d.sideOf n.token.text with
      | .before => n.right.toList
      | .after => n.left.toList
  | .call => some (.function, a.arguments n)
  | .literal | .identifier | .opening | .closing | .separator | .missing => none

/-- The nodes that node `id` takes values from. -/
def operandsOf (d : Dialect) (a : Arena) (id : Nat) : List Nat :=
  match (a.nodes[id]?).bind (a.operands? d) with
  | some (_, operands) => operands
  | none => []

/-- Marks the pending nodes and what they reach, the latest first.  Each node is met once, so as
many steps are enough as there are nodes. -/
def mark (operands : Nat → List Nat) : Nat → List Nat → Array Bool → Array Bool
  | steps + 1, id :: pending, marked =>
    mark operands steps ((operands id).reverse ++ pending) (marked.setIfInBounds id true)
  | _, _, marked => marked

/-- The nodes that the root reaches. -/
def reachable (d : Dialect) (a : Arena) : Array Bool :=
  mark (a.operandsOf d) a.nodes.size [a.root] (Array.replicate a.nodes.size false)

/-- The text of an argument that is written as a single literal or name. -/
def argumentText? (a : Arena) (id : Nat) : Option String :=
  match a.token? id with
  | some t =>
    match t.kind with
    | .literal | .identifier => some t.text
    | _ => none
  | none => none

end Arena

/-! ### One node -/

variable {D : Domain}

/-- What comes of a node: its kind, the overload that it calls, or what is wrong with it. -/
structure Judgment (D : Domain) where
  kind : Option D.Kind
  overload : Option (Overload D) := none
  faults : List TypeFault := []

namespace Judgment

def ofKind? (kind : Option D.Kind) (fault : TypeFault) : Judgment D :=
  match kind with
  | some kind => { kind := some kind }
  | none => { kind := none, faults := [fault] }

end Judgment

namespace Typing

variable (s : Typing D)

/-- Judges a node that calls nothing; `owner` is the token above it. -/
def judgeToken (owner : Option Token) (t : Token) : Judgment D :=
  match t.kind with
  | .literal => .ofKind? ((D.readLiteral t.text).map D.kindOf) (.invalidLiteral t)
  | .identifier => .ofKind? (s.kindOf t.text) (.unbound t)
  | .missing => .ofKind? none (.missingOperand owner)
  | .separator => .ofKind? none (.orphanSeparator t)
  | .operator | .unary | .opening | .closing | .call => .ofKind? none (.alien t)

/-- Judges a call by the kinds and texts of its operands. -/
def judgeCall (sort : CallSort) (t : Token) (operands : List (Option D.Kind × Option String)) :
    Judgment D :=
  let short := operands.length < sort.wanted operands.length
  let missing := if short then [.missingOperand (some t)] else []
  match operands.mapM (·.1) with
  | none => { kind := none, faults := missing }
  | some kinds =>
    if short then { kind := none, faults := missing }
    else
      match s.catalog.callable? sort t.text with
      | none => { kind := none, faults := [.undeclared sort t] }
      | some c =>
        match s.choose c ((operands.zip kinds).map fun p => ⟨p.2, p.1.2⟩) with
        | .error refusal => { kind := none, faults := [.refused refusal t.span] }
        | .ok choice => { kind := some choice.overload.output, overload := some choice.overload }

end Typing

/-! ### All nodes -/

/-- What is known of the nodes so far. -/
structure Binder (D : Domain) where
  kinds : Array (Option D.Kind)
  /-- The overload of each call, with the nodes of its operands. -/
  calls : Array (Option (Overload D × List Nat))
  faults : List TypeFault

namespace Binder

/-- Nothing is known. -/
def start (count : Nat) : Binder D :=
  ⟨Array.replicate count none, Array.replicate count none, []⟩

/-- Writes down what comes of node `id`. -/
def enter (b : Binder D) (id : Nat) (operands : List Nat) (j : Judgment D) : Binder D where
  kinds := b.kinds.setIfInBounds id j.kind
  calls :=
    match j.overload with
    | some overload => b.calls.setIfInBounds id (some (overload, operands))
    | none => b.calls
  faults := b.faults ++ j.faults

/-- Judges node `id`. -/
def judge (s : Typing D) (d : Dialect) (a : Arena) (b : Binder D) (n : Arena.Node) (id : Nat) :
    Binder D :=
  match a.operands? d n with
  | some (sort, operands) =>
    b.enter id operands <| s.judgeCall sort n.token <|
      operands.map fun operand => (b.kinds[operand]?.join, a.argumentText? operand)
  | none => b.enter id [] (s.judgeToken ((a.parent? id).bind a.token?) n.token)

/-- Judges the nodes that are marked, from front to back. -/
def run (s : Typing D) (d : Dialect) (a : Arena) (marked : Array Bool) : Binder D :=
  a.nodes.toList.zipIdx.foldl
    (fun b x => if marked[x.2]? = some true then b.judge s d a x.1 x.2 else b)
    (start a.nodes.size)

end Binder

/-- An expression whose calls are bound. -/
structure Binding (D : Domain) where
  rootKind : D.Kind
  calls : Array (Option (Overload D × List Nat))

/-- Binds the calls of an expression, or tells all that is wrong with it. -/
def Arena.bind (s : Typing D) (d : Dialect) (a : Arena) : Except (List Diagnostic) (Binding D) :=
  let b := Binder.run s d a (a.reachable d)
  match Diagnostic.settle (b.faults.map (·.diagnostic)) with
  | .error diagnostics => .error diagnostics
  | .ok () =>
    match b.kinds[a.root]?.join with
    | some kind => .ok ⟨kind, b.calls⟩
    | none => .error [.plain "expression has no type"]

end Reckon
