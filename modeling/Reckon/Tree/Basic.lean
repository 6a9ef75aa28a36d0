import Reckon.Token

/-!
# Expression trees

An inner node joins exactly two subtrees; where the text leaves an operand out, a placeholder leaf
stands in its place.  A call holds its arguments in its right subtree, as a chain of separators that
leans to the right (`Tree.arguments`).

`Tree.text` says how a tree is written with all its parentheses; `Tree.render` writes the same text
with a list of pending pieces, so that neither depth nor length is paid for twice.
-/

namespace Reckon

inductive Tree where
  | leaf (token : Token)
  | node (token : Token) (left right : Tree)
deriving DecidableEq

namespace Tree

def token : Tree → Token
  | leaf t => t
  | node t _ _ => t

def kind (t : Tree) : TokenKind := t.token.kind

def isLeaf : Tree → Bool
  | leaf _ => true
  | node .. => false

def isMissing (t : Tree) : Bool := t.token.isMissing

def left? : Tree → Option Tree
  | leaf _ => none
  | node _ l _ => some l

def right? : Tree → Option Tree
  | leaf _ => none
  | node _ _ r => some r

/-- Number of nodes. -/
def size : Tree → Nat
  | leaf _ => 1
  | node _ l r => l.size + r.size + 1

def height : Tree → Nat
  | leaf _ => 1
  | node _ l r => max l.height r.height + 1

def leafCount : Tree → Nat
  | leaf _ => 1
  | node _ l r => l.leafCount + r.leafCount

/-- The smallest span around two spans that may be absent. -/
def joinSpans : Option Span → Option Span → Option Span
  | some s, some t => some (s.union t)
  | some s, none => some s
  | none, t => t

/-- The smallest span around every token that has a position. -/
def span : Tree → Option Span
  | leaf t => t.span
  | node t l r => joinSpans (joinSpans l.span r.span) t.span

/-! ### Listings -/

/-- The tokens of the tree, operands before the token that joins them, put before `tail`. -/
def postorderOnto : Tree → List Token → List Token
  | leaf t, tail => t :: tail
  | node t l r, tail => l.postorderOnto (r.postorderOnto (t :: tail))

def postorder (t : Tree) : List Token := t.postorderOnto []

theorem postorderOnto_eq (t : Tree) (tail : List Token) :
    t.postorderOnto tail = t.postorder ++ tail := by
  induction t generalizing tail with
  | leaf _ => rfl
  | node t l r ihl ihr =>
    simp only [postorder, postorderOnto]
    rw [ihl, ihr, ihl (r.postorderOnto _), ihr [t]]
    simp

@[simp] theorem postorder_leaf (t : Token) : (leaf t).postorder = [t] := rfl

@[simp] theorem postorder_node (t : Token) (l r : Tree) :
    (node t l r).postorder = l.postorder ++ (r.postorder ++ [t]) := by
  simp only [postorder, postorderOnto]
  rw [postorderOnto_eq l, postorderOnto_eq r]
  rfl

theorem length_postorder (t : Tree) : t.postorder.length = t.size := by
  induction t with
  | leaf _ => rfl
  | node t l r ihl ihr => simp [size, ihl, ihr]; omega

/-- The tokens of the tree from left to right, each between its operands, put before `tail`. -/
def inorderOnto : Tree → List Token → List Token
  | leaf t, tail => t :: tail
  | node t l r, tail => l.inorderOnto (t :: r.inorderOnto tail)

def inorder (t : Tree) : List Token := t.inorderOnto []

theorem inorderOnto_eq (t : Tree) (tail : List Token) :
    t.inorderOnto tail = t.inorder ++ tail := by
  induction t generalizing tail with
  | leaf _ => rfl
  | node t l r ihl ihr =>
    simp only [inorder, inorderOnto]
    rw [ihl, ihr, ihl (t :: r.inorderOnto []), ihr []]
    simp

@[simp] theorem inorder_leaf (t : Token) : (leaf t).inorder = [t] := rfl

@[simp] theorem inorder_node (t : Token) (l r : Tree) :
    (node t l r).inorder = l.inorder ++ t :: r.inorder := by
  simp only [inorder, inorderOnto]
  rw [inorderOnto_eq l, inorderOnto_eq r]
  simp [inorder]

/-- A subtree with the token of the node above it. -/
structure Visit where
  tree : Tree
  parent : Option Token
deriving DecidableEq

/-- Every subtree in postorder, put before `tail`. -/
def visitsOnto (parent : Option Token) : Tree → List Visit → List Visit
  | leaf t, tail => ⟨leaf t, parent⟩ :: tail
  | node t l r, tail =>
    l.visitsOnto (some t) (r.visitsOnto (some t) (⟨node t l r, parent⟩ :: tail))

/-- Every subtree in postorder, the whole tree last. -/
def visits (t : Tree) : List Visit := t.visitsOnto none []

/-- The subtrees of one kind, in postorder. -/
def visitsOf (t : Tree) (kind : TokenKind) : List Visit :=
  t.visits.filter fun v => v.tree.kind == kind

/-! ### Arguments -/

/-- The links of a chain of separators. -/
def chain : Tree → List Tree
  | leaf t => [leaf t]
  | node t l r => if t.kind = .separator then l :: r.chain else [node t l r]

/-- The arguments of a call; a lone placeholder means that there are none. -/
def arguments : Tree → List Tree
  | leaf _ => []
  | node _ _ r => if r.isMissing then [] else r.chain

/-! ### Written form -/

/-- Whether a unary operator is written before its operand, that is, has nothing on its left. -/
def standsBefore : Tree → Bool
  | leaf _ => true
  | node _ l _ => l.isMissing

/-- The tree as text: operators in parentheses, placeholders as nothing. -/
def text : Tree → String
  | leaf t =>
    match t.kind with
    | .missing => ""
    | .operator | .unary => "(" ++ t.text ++ ")"
    | .call => t.text ++ "()"
    | .literal | .identifier | .opening | .closing | .separator => t.text
  | node t l r =>
    match t.kind with
    | .missing => ""
    | .literal | .identifier | .opening | .closing => t.text
    | .operator => "(" ++ l.text ++ t.text ++ r.text ++ ")"
    | .unary =>
      if l.isMissing then "(" ++ t.text ++ r.text ++ ")" else "(" ++ l.text ++ t.text ++ ")"
    | .separator => l.text ++ t.text ++ r.text
    | .call => t.text ++ "(" ++ r.text ++ ")"

/-- Something still to be written. -/
inductive Piece where
  | tree (t : Tree)
  | text (s : String)

/-- A subtree to be written, if it is there. -/
def pieceOf : Option Tree → List Piece
  | some t => [.tree t]
  | none => []

/-- What a node is written as, in order. -/
def pieces (t : Tree) : List Piece :=
  let own := Piece.text t.token.text
  match t.kind with
  | .missing => []
  | .literal | .identifier | .opening | .closing => [own]
  | .operator => .text "(" :: pieceOf t.left? ++ own :: pieceOf t.right? ++ [.text ")"]
  | .unary =>
    if t.standsBefore then .text "(" :: own :: pieceOf t.right? ++ [.text ")"]
    else .text "(" :: pieceOf t.left? ++ [own, .text ")"]
  | .separator => pieceOf t.left? ++ own :: pieceOf t.right?
  | .call => own :: .text "(" :: pieceOf t.right? ++ [.text ")"]

/-- Bounds the steps that writing a piece takes. -/
def Piece.weight : Piece → Nat
  | .tree t => 5 * t.size
  | .text _ => 1

def weigh : List Piece → Nat
  | [] => 0
  | p :: ps => p.weight + weigh ps

theorem weigh_cons (p : Piece) (ps : List Piece) : weigh (p :: ps) = p.weight + weigh ps := rfl

theorem weigh_append (ps qs : List Piece) : weigh (ps ++ qs) = weigh ps + weigh qs := by
  induction ps with
  | nil => simp [weigh]
  | cons p ps ih => simp [weigh, ih, Nat.add_assoc]

theorem weigh_pieces_lt (t : Tree) : weigh t.pieces < Piece.weight (.tree t) := by
  cases t <;> unfold pieces <;> split <;> (try split) <;>
    simp [pieceOf, left?, right?, weigh, Piece.weight, size] <;> omega

/-- Writes pending pieces behind the text written so far. -/
def write (out : String) : List Piece → String
  | [] => out
  | .text s :: ps => write (out ++ s) ps
  | .tree t :: ps => write out (t.pieces ++ ps)
termination_by ps => weigh ps
decreasing_by
  · rw [weigh_cons]; simp [Piece.weight]
  · rw [weigh_append, weigh_cons]; have := weigh_pieces_lt t; omega

/-- The tree as text. -/
def render (t : Tree) : String := write "" [.tree t]

end Tree

end Reckon
