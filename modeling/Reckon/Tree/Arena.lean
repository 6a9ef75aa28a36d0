import Reckon.Tree.Build
import Reckon.Tree.Table

/-!
# Arenas

A tree may be laid out as a row of nodes in postorder that refer to each other by number.
`Arena.ofPolish` lays out the tree that reverse Polish order spells, in one pass over the tokens; a
second pass tells every node which node is above it.  `Tree.arena` lays out a tree that is there
already.
-/

namespace Reckon

/-- A node that knows its children by number. -/
structure Arena.Node where
  token : Token
  left : Option Nat
  right : Option Nat
deriving DecidableEq

structure Arena where
  nodes : Array Arena.Node
  /-- The node above each node. -/
  parents : Array (Option Nat)
  root : Nat
  /-- The node of each token, by the place of the token, in the order of entry. -/
  dictionary : List (Nat × Nat)
deriving DecidableEq

namespace Arena

/-! ### Nodes above -/

def Node.children (n : Node) : List Nat := n.left.toList ++ n.right.toList

/-- Writes the number of a node down for its children. -/
def adopt (parents : Array (Option Nat)) (numbered : Node × Nat) : Array (Option Nat) :=
  numbered.1.children.foldl
    (fun parents child => parents.setIfInBounds child (some numbered.2)) parents

def parentsOf (nodes : Array Node) : Array (Option Nat) :=
  nodes.toList.zipIdx.foldl adopt (Array.replicate nodes.size none)

/-- The number of the node above node `id`. -/
def parent? (a : Arena) (id : Nat) : Option Nat := a.parents[id]?.join

/-! ### Subtrees -/

variable {α : Type}

/-- Computes the value of one more node from the values of its children. -/
def foldInto (combine : Node → Option α → Option α → α) (done : Array α) (n : Node) : Array α :=
  done.push (combine n (n.left.bind fun id => done[id]?) (n.right.bind fun id => done[id]?))

/-- Computes values from the leaves up to node `id`.  Children come before the node above them. -/
def foldAt (combine : Node → Option α → Option α → α) (nodes : List Node) (id : Nat) : Option α :=
  ((nodes.take (id + 1)).foldl (foldInto combine) #[])[id]?

/-- A node with the subtrees below it; both are there, or none. -/
def Node.join (n : Node) : Option Tree → Option Tree → Tree
  | some l, some r => .node n.token l r
  | _, _ => .leaf n.token

/-- The tree that is laid out. -/
def tree? (a : Arena) : Option Tree := foldAt Node.join a.nodes.toList a.root

/-! ### Building -/

/-- Puts a pair at the end, or in the place of one with the same key. -/
def enter (place id : Nat) : List (Nat × Nat) → List (Nat × Nat)
  | [] => [(place, id)]
  | pair :: rest => if place == pair.1 then (place, id) :: rest else pair :: enter place id rest

/-- An arena that is being built. -/
structure Draft where
  nodes : Array Node
  dictionary : List (Nat × Nat)
  /-- The places of the tokens whose subtrees nothing joins so far, the latest first. -/
  stack : List Nat

/-- Takes in the token at a place. -/
def Draft.take (draft : Draft) (placed : Token × Nat) : Draft :=
  let (token, place) := placed
  let (node, stack) : Node × List Nat :=
    match draft.stack with
    | right :: left :: below =>
      if token.kind.isOperand then (⟨token, none, none⟩, right :: left :: below)
      else (⟨token, draft.dictionary.lookup left, draft.dictionary.lookup right⟩, below)
    | stack => (⟨token, none, none⟩, stack)
  ⟨draft.nodes.push node, enter place draft.nodes.size draft.dictionary, place :: stack⟩

/-- The tree of the token at a place. -/
def Draft.treeAt? (draft : Draft) (place : Nat) : Option Tree :=
  (draft.dictionary.lookup place).bind (foldAt Node.join draft.nodes.toList)

/-- The arena of a draft when all tokens are taken in. -/
def Draft.finish (draft : Draft) : Except Fault Arena :=
  match draft.stack with
  | [] => .error .empty
  | [place] =>
    match draft.dictionary.lookup place with
    | some root => .ok ⟨draft.nodes, parentsOf draft.nodes, root, draft.dictionary⟩
    | none => .error .empty
  | residual => .error (.residual (residual.reverse.filterMap draft.treeAt?))

/-- The arena of the tree that tokens in reverse Polish order spell. -/
def ofPolish (ts : List Token) : Except Fault Arena :=
  (ts.zipIdx.foldl Draft.take ⟨#[], [], []⟩).finish

end Arena

/-! ### Laying out trees -/

def Tree.Entry.node (e : Tree.Entry) : Arena.Node := ⟨e.tree.token, e.left?, e.right?⟩

def Tree.arena (t : Tree) : Arena where
  nodes := (t.entries.map (·.node)).toArray
  parents := (t.entries.map (·.parent)).toArray
  root := t.size - 1
  dictionary := t.entries.map fun e => (e.id, e.id)

end Reckon
