import Reckon.Tree.Arena

/-!
# Walks over arenas

What is asked of a node is computed without recursion.  Heights, leaves and spans come from one pass
over the nodes in the order in which they stand; the text comes from a list of pieces that are still
to be written.  Neither looks at a tree: they read nodes by number, and have no result if a node or
a value that they read is not there.  Children stand before the node above them
(`Arena.Descending`); if they did not, writing might go on for ever.
-/

namespace Reckon.Arena

/-! ### Passes -/

variable {α : Type}

/-- Computes the value of one more node, if the values of its children are there. -/
def foldInto? (combine : Node → Option α → Option α → α) (done : Array α) (n : Node) :
    Option (Array α) :=
  if n.children.all (· < done.size) then some (foldInto combine done n) else none

/-- Computes values for the first `count` nodes. -/
def foldFirst? (a : Arena) (combine : Node → Option α → Option α → α) (count : Nat) :
    Option (Array α) :=
  (a.nodes.toList.take count).foldlM (foldInto? combine) #[]

/-- Computes values for every node up to `id`, whether it is below node `id` or not. -/
def foldAt? (a : Arena) (combine : Node → Option α → Option α → α) (id : Nat) : Option α := do
  let done ← a.foldFirst? combine (id + 1)
  done[id]?

/-- The number of nodes on the longest way down from a node. -/
def heightAt? (a : Arena) (id : Nat) : Option Nat :=
  a.foldAt? (fun _ left right => 1 + max (left.getD 0) (right.getD 0)) id

def Node.isLeaf (n : Node) : Bool := n.left.isNone && n.right.isNone

/-- The number of leaves below the root. -/
def leafCount? (a : Arena) : Option Nat :=
  a.foldAt? (fun n left right => if n.isLeaf then 1 else left.getD 0 + right.getD 0) a.root

/-- The span of the tokens below a node, if any of them has a position. -/
def spanAt? (a : Arena) (id : Nat) : Option (Option Span) :=
  a.foldAt? (fun n left right => Span.hull ([left.join, right.join, n.token.span].filterMap (·))) id

/-! ### Writing -/

/-- Something still to be written. -/
inductive Piece where
  | node (id : Nat)
  | text (s : String)

/-- A child to be written, if it is there. -/
def pieceOf : Option Nat → List Piece
  | some id => [.node id]
  | none => []

/-- Whether a unary operator is written before its operand. -/
def standsBefore? (a : Arena) (n : Node) : Option Bool :=
  match n.left with
  | some id => a.nodes[id]?.map (·.token.isMissing)
  | none => some true

/-- What a node is written as, in order. -/
def pieces? (a : Arena) (n : Node) : Option (List Piece) :=
  let own := Piece.text n.token.text
  match n.token.kind with
  | .missing => some []
  | .literal | .identifier | .opening | .closing => some [own]
  | .operator => some (.text "(" :: pieceOf n.left ++ own :: pieceOf n.right ++ [.text ")"])
  | .unary => (a.standsBefore? n).map fun before =>
    if before then .text "(" :: own :: pieceOf n.right ++ [.text ")"]
    else .text "(" :: pieceOf n.left ++ [own, .text ")"]
  | .separator => some (pieceOf n.left ++ own :: pieceOf n.right)
  | .call => some (own :: .text "(" :: pieceOf n.right ++ [.text ")"])

/-- Children stand before the node above them. -/
def Descending (a : Arena) : Prop :=
  ∀ (id : Nat) (n : Node), a.nodes[id]? = some n → ∀ child ∈ n.children, child < id

/-- Bounds the steps that writing a piece takes if children stand before the nodes above them. -/
def Piece.weight : Piece → Nat
  | .node id => Nat.pow 6 (id + 1)
  | .text _ => 1

def weigh : List Piece → Nat
  | [] => 0
  | p :: ps => p.weight + weigh ps

theorem weigh_nil : weigh [] = 0 := rfl

theorem weigh_cons (p : Piece) (ps : List Piece) : weigh (p :: ps) = p.weight + weigh ps := rfl

theorem weigh_append (ps qs : List Piece) : weigh (ps ++ qs) = weigh ps + weigh qs := by
  induction ps with
  | nil => rw [List.nil_append, weigh_nil, Nat.zero_add]
  | cons p ps ih => rw [List.cons_append, weigh_cons, weigh_cons, ih, Nat.add_assoc]

theorem weigh_pieceOf_le {side : Option Nat} {id : Nat} (h : ∀ child ∈ side.toList, child < id) :
    weigh (pieceOf side) ≤ Nat.pow 6 id := by
  cases side with
  | none => exact Nat.zero_le _
  | some child =>
    have hlt : child < id := h child (List.mem_singleton_self _)
    exact Nat.pow_le_pow_right (by decide) hlt

/-- A node writes its children, each once at most, and three texts at most. -/
theorem weigh_pieces_le {a : Arena} {n : Node} {ps : List Piece} (h : a.pieces? n = some ps) :
    weigh ps ≤ weigh (pieceOf n.left) + weigh (pieceOf n.right) + 3 := by
  cases hkind : n.token.kind with
  | unary =>
    simp only [pieces?, hkind] at h
    obtain ⟨before, -, rfl⟩ := Option.map_eq_some_iff.mp h
    cases before <;> simp [weigh_append, weigh_cons, weigh_nil, Piece.weight] <;> omega
  | _ =>
    simp only [pieces?, hkind, Option.some.injEq] at h
    subst h
    simp only [weigh_append, weigh_cons, weigh_nil, Piece.weight]
    omega

theorem Descending.weigh_pieces_lt {a : Arena} (h : a.Descending) {id : Nat} {n : Node}
    {ps : List Piece} (hn : a.nodes[id]? = some n) (hps : a.pieces? n = some ps) :
    weigh ps < Piece.weight (.node id) := by
  have hle := weigh_pieces_le hps
  have hleft := weigh_pieceOf_le fun child hchild =>
    h id n hn child (List.mem_append_left _ hchild)
  have hright := weigh_pieceOf_le fun child hchild =>
    h id n hn child (List.mem_append_right _ hchild)
  have hpos : 0 < Nat.pow 6 id := Nat.pow_pos (by decide)
  have hweight : Piece.weight (.node id) = Nat.pow 6 id * 6 := rfl
  omega

/-- Writes pending pieces behind the text written so far. -/
def write? (a : Arena) (h : a.Descending) (out : String) (pending : List Piece) : Option String :=
  match pending with
  | [] => some out
  | .text s :: rest => a.write? h (out ++ s) rest
  | .node id :: rest =>
    match _ : a.nodes[id]? with
    | none => none
    | some n =>
      match _ : a.pieces? n with
      | none => none
      | some ps => a.write? h out (ps ++ rest)
termination_by weigh pending
decreasing_by
  · rw [weigh_cons]; simp [Piece.weight]
  · rw [weigh_append, weigh_cons]; have := h.weigh_pieces_lt ‹_› ‹_›; omega

/-- The text of a node with all that is below it. -/
def renderAt? (a : Arena) (h : a.Descending) (id : Nat) : Option String :=
  a.write? h "" [.node id]

end Reckon.Arena
