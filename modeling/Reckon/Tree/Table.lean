import Reckon.Tree.Basic

/-!
# Tables over trees

Nodes are numbered by their place in postorder.  `Tree.table` computes a value for every node in one
sweep over that order, with the values of finished subtrees on a stack; `Tree.entries` gives the
numbers of the nodes around each node.
-/

namespace Reckon.Tree

/-! ### Sweeps -/

/-- One node as a sweep meets it. -/
structure Step where
  token : Token
  isLeaf : Bool

/-- The nodes in postorder, put before `tail`. -/
def stepsOnto : Tree → List Step → List Step
  | leaf t, tail => ⟨t, true⟩ :: tail
  | node t l r, tail => l.stepsOnto (r.stepsOnto (⟨t, false⟩ :: tail))

variable {α : Type}

/-- Runs over the nodes.  A leaf puts its value on the stack, an inner node replaces the two values
on top by its own; `done` collects every value in turn. -/
def sweep (ofLeaf : Token → α) (ofNode : Token → α → α → α) (stack : List α) (done : Array α) :
    List Step → Array α
  | [] => done
  | step :: steps =>
    if step.isLeaf then
      let value := ofLeaf step.token
      sweep ofLeaf ofNode (value :: stack) (done.push value) steps
    else
      match stack with
      | right :: left :: stack =>
        let value := ofNode step.token left right
        sweep ofLeaf ofNode (value :: stack) (done.push value) steps
      | _ => done

/-- The values of all subtrees, in postorder. -/
def table (ofLeaf : Token → α) (ofNode : Token → α → α → α) (t : Tree) : Array α :=
  sweep ofLeaf ofNode [] #[] (t.stepsOnto [])

/-- The height of every subtree. -/
def heights (t : Tree) : Array Nat := t.table (fun _ => 1) fun _ l r => max l r + 1

/-- The span of every subtree. -/
def spans (t : Tree) : Array (Option Span) :=
  t.table (·.span) fun t l r => joinSpans (joinSpans l r) t.span

/-! ### Numbers -/

/-- A node with its number and the number of the node above it. -/
structure Entry where
  tree : Tree
  id : Nat
  parent : Option Nat

/-- Numbers the nodes from `first`, and puts them before `tail`. -/
def entriesOnto (first : Nat) (parent : Option Nat) : Tree → List Entry → List Entry
  | leaf t, tail => ⟨leaf t, first, parent⟩ :: tail
  | node t l r, tail =>
    let id := first + l.size + r.size
    l.entriesOnto first (some id)
      (r.entriesOnto (first + l.size) (some id) (⟨node t l r, id, parent⟩ :: tail))

/-- The nodes in the order of their numbers. -/
def entries (t : Tree) : List Entry := t.entriesOnto 0 none []

/-- The number of the left subtree. -/
def Entry.left? (e : Entry) : Option Nat :=
  match e.tree with
  | leaf _ => none
  | node _ _ r => some (e.id - 1 - r.size)

/-- The number of the right subtree. -/
def Entry.right? (e : Entry) : Option Nat :=
  match e.tree with
  | leaf _ => none
  | node .. => some (e.id - 1)

/-- The numbers of the links of a chain whose first node is numbered `id`. -/
def chainIds (id : Nat) : Tree → List Nat
  | leaf _ => [id]
  | node t _ r => if t.kind = .separator then (id - 1 - r.size) :: r.chainIds (id - 1) else [id]

/-- The numbers of the arguments of a call. -/
def Entry.arguments (e : Entry) : List Nat :=
  match e.tree with
  | leaf _ => []
  | node _ _ r => if r.isMissing then [] else r.chainIds (e.id - 1)

end Reckon.Tree
