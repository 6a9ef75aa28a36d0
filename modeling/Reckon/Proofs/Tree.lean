import Reckon.Tree.Basic

/-!
# Writing and visiting trees

`Tree.render` writes the text of a tree, `Tree.visits` meets each subtree with its parent, and
`Tree.chain` lists the arguments of a call.
-/

namespace Reckon.Tree

variable {t l r : Tree} {parent : Option Token} {v : Visit}

/-! ## Writing -/

/-- The text of pending pieces. -/
def pending : List Piece → String
  | [] => ""
  | .tree t :: ps => t.text ++ pending ps
  | .text s :: ps => s ++ pending ps

theorem pending_append (ps qs : List Piece) : pending (ps ++ qs) = pending ps ++ pending qs := by
  induction ps with
  | nil => simp [pending]
  | cons p ps ih => cases p <;> simp [pending, ih, String.append_assoc]

theorem pending_pieces (t : Tree) : pending t.pieces = t.text := by
  cases t with
  | leaf t =>
    cases hk : t.kind <;>
      simp [pieces, Tree.kind, token, standsBefore, pieceOf, left?, right?, pending, text, hk,
        String.append_assoc]
  | node t l r =>
    cases hk : t.kind with
    | unary =>
      by_cases hl : l.isMissing
      · simp [pieces, Tree.kind, token, standsBefore, pieceOf, right?, pending, text, hk, hl,
          String.append_assoc]
      · simp [pieces, Tree.kind, token, standsBefore, pieceOf, left?, pending, text, hk, hl,
          String.append_assoc]
    | _ =>
      simp [pieces, Tree.kind, token, pieceOf, left?, right?, pending, text, hk,
        String.append_assoc]

theorem write_eq (out : String) (ps : List Piece) : write out ps = out ++ pending ps := by
  fun_induction write out ps with
  | case1 out => simp [pending]
  | case2 out s ps ih => rw [ih, pending, String.append_assoc]
  | case3 out t ps ih => rw [ih, pending_append, pending_pieces, pending]

/-- Rendering writes the text of the tree. -/
theorem render_eq_text (t : Tree) : t.render = t.text := by
  rw [render, write_eq]
  simp [pending]

/-! ## Visiting -/

theorem visitsOnto_eq (parent : Option Token) (t : Tree) (tail : List Visit) :
    t.visitsOnto parent tail = t.visitsOnto parent [] ++ tail := by
  induction t generalizing parent tail with
  | leaf t => rfl
  | node t l r ihl ihr =>
    simp only [visitsOnto]
    rw [ihl, ihr, ihl (some t) (r.visitsOnto _ _), ihr (some t) [_]]
    simp

theorem mem_visitsOnto_leaf {token : Token} :
    v ∈ (leaf token).visitsOnto parent [] ↔ v = ⟨leaf token, parent⟩ := List.mem_singleton

theorem mem_visitsOnto_node {token : Token} : v ∈ (node token l r).visitsOnto parent [] ↔
    v ∈ l.visitsOnto (some token) [] ∨ v ∈ r.visitsOnto (some token) [] ∨
      v = ⟨node token l r, parent⟩ := by
  rw [visitsOnto, visitsOnto_eq, visitsOnto_eq _ r]
  simp

theorem mem_visitsOnto_self (t : Tree) (parent : Option Token) :
    ⟨t, parent⟩ ∈ t.visitsOnto parent [] := by
  cases t with
  | leaf token => exact List.mem_singleton_self _
  | node token l r => exact mem_visitsOnto_node.mpr (.inr (.inr rfl))

theorem mem_visitsOf {kind : TokenKind} : v ∈ t.visitsOf kind ↔ v ∈ t.visits ∧ v.tree.kind = kind := by
  simp [visitsOf]

/-! ## Chains -/

/-- What is no separator is a chain of one link. -/
theorem chain_of_ne_separator (h : t.kind ≠ .separator) : t.chain = [t] := by
  cases t with
  | leaf token => rfl
  | node token l r => exact if_neg h

theorem chain_ne_nil (t : Tree) : t.chain ≠ [] := by
  cases t with
  | leaf token => exact List.cons_ne_nil _ _
  | node token l r =>
    rw [chain]
    split <;> exact List.cons_ne_nil _ _

/-- A chain of one link is the link. -/
theorem eq_of_chain_eq (h : t.chain = [l]) : t = l := by
  cases t with
  | leaf token => exact (List.cons.inj h).1
  | node token left right =>
    rw [chain] at h
    split at h
    · exact absurd (List.cons.inj h).2 right.chain_ne_nil
    · exact (List.cons.inj h).1

end Reckon.Tree
