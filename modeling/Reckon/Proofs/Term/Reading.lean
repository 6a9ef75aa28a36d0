import Mathlib.Data.List.Forall2
import Reckon.Proofs.Tree
import Reckon.Term.Basic

/-!
# What evaluation reads of a tree

`Tree.operands` are the subtrees that a node takes values from, and `Tree.read` are all subtrees
that are reached in this way, in postfix order.  The term of a tree is made of these and of nothing
else.
-/

namespace Reckon

variable {d : Dialect} {t u l r : Tree}

namespace Tree

/-! ## Operands -/

/-- The subtrees that a node takes values from: both of an operator, the one on its side of a unary
operator, the arguments of a call. -/
def operands (d : Dialect) : Tree → List Tree
  | leaf _ => []
  | node t l r =>
    match t.kind with
    | .operator => [l, r]
    | .unary =>
      match d.sideOf t.text with
      | .before => [r]
      | .after => [l]
    | .call => (node t l r).arguments
    | .literal | .identifier | .opening | .closing | .separator | .missing => []

theorem size_le_of_mem_chain (h : u ∈ t.chain) : u.size ≤ t.size := by
  induction t with
  | leaf token =>
    rw [chain, List.mem_singleton] at h
    exact Nat.le_of_eq (congrArg size h)
  | node token l r ihl ihr =>
    rw [chain] at h
    split at h
    · rcases List.mem_cons.mp h with rfl | h
      · simp only [size]
        omega
      · have := ihr h
        simp only [size]
        omega
    · rw [List.mem_singleton] at h
      exact Nat.le_of_eq (congrArg size h)

theorem size_lt_of_mem_operands (h : u ∈ t.operands d) : u.size < t.size := by
  cases t with
  | leaf token => simp [operands] at h
  | node token l r =>
    rw [operands] at h
    simp only [size]
    split at h
    · rcases List.mem_pair.mp h with rfl | rfl <;> omega
    · split at h <;> rw [List.mem_singleton] at h <;> subst h <;> omega
    · rw [arguments] at h
      split at h
      · simp at h
      · have := size_le_of_mem_chain h
        omega
    all_goals simp at h

/-- The subtrees that evaluation reaches, operands before the node that takes them. -/
def read (d : Dialect) (t : Tree) : List Tree :=
  ((t.operands d).attach.flatMap fun u => read d u.1) ++ [t]
termination_by t.size
decreasing_by exact size_lt_of_mem_operands u.2

theorem read_eq (d : Dialect) (t : Tree) : t.read d = (t.operands d).flatMap (read d) ++ [t] := by
  rw [read, List.flatMap_subtype (g := read d) fun _ _ => rfl, List.unattach_attach]

theorem mem_read_self (d : Dialect) (t : Tree) : t ∈ t.read d := by
  rw [read_eq]
  simp

theorem read_of_operands_nil (h : t.operands d = []) : t.read d = [t] := by
  rw [read_eq, h]
  rfl

/-- A tree is read in postfix order, and no node twice. -/
theorem read_sublist_visits (d : Dialect) (t : Tree) (parent : Option Token) :
    (t.read d).Sublist ((t.visitsOnto parent []).map (·.tree)) ∧
      (t.chain.flatMap (read d)).Sublist ((t.visitsOnto parent []).map (·.tree)) := by
  induction t generalizing parent with
  | leaf token =>
    have hread : (leaf token).read d = [leaf token] := read_of_operands_nil rfl
    rw [chain, List.flatMap_singleton, hread]
    exact ⟨.refl _, .refl _⟩
  | node token l r ihl ihr =>
    obtain ⟨hl, -⟩ := ihl (some token)
    obtain ⟨hr, hchain⟩ := ihr (some token)
    have hvisits : ((node token l r).visitsOnto parent []).map (·.tree) =
        (l.visitsOnto (some token) []).map (·.tree) ++
          ((r.visitsOnto (some token) []).map (·.tree) ++ [node token l r]) := by
      rw [visitsOnto, visitsOnto_eq, visitsOnto_eq _ r]
      simp
    have hoperands : (((node token l r).operands d).flatMap (read d)).Sublist
        ((l.visitsOnto (some token) []).map (·.tree) ++
          (r.visitsOnto (some token) []).map (·.tree)) := by
      rw [operands]
      split
      · simpa using hl.append hr
      · split
        · simpa using hr.trans (List.sublist_append_right _ _)
        · simpa using hl.trans (List.sublist_append_left _ _)
      · rw [arguments]
        split
        · exact List.nil_sublist _
        · exact hchain.trans (List.sublist_append_right _ _)
      all_goals exact List.nil_sublist _
    have hread : ((node token l r).read d).Sublist
        (((node token l r).visitsOnto parent []).map (·.tree)) := by
      rw [hvisits, read_eq, ← List.append_assoc]
      exact hoperands.append (.refl _)
    refine ⟨hread, ?_⟩
    rw [chain]
    split
    · rw [hvisits, List.flatMap_cons]
      exact hl.append (hchain.trans (List.sublist_append_left _ _))
    · rwa [List.flatMap_singleton]

end Tree

/-! ## Terms -/

namespace Term

/-- The sort of call that a kind of token makes. -/
def callSort? : TokenKind → Option CallSort
  | .operator => some .operator
  | .unary => some .unary
  | .call => some .function
  | .literal | .identifier | .opening | .closing | .separator | .missing => none

/-- The term is what a tree is read as, under some parent. -/
def IsOf (d : Dialect) (term : Term) (t : Tree) : Prop :=
  ∃ parent, term = (reading d parent t).whole

theorem isOf_ofTree (d : Dialect) (t : Tree) : IsOf d (ofTree d t) t := ⟨none, rfl⟩

theorem isOf_links (d : Dialect) (parent : Option Token) (t : Tree) :
    List.Forall₂ (IsOf d) (reading d parent t).links t.chain := by
  induction t generalizing parent with
  | leaf token => exact .cons ⟨parent, rfl⟩ .nil
  | node token l r ihl ihr =>
    rw [Tree.chain]
    split
    · rename_i hk
      have hlinks : (reading d parent (.node token l r)).links =
          (reading d (some token) l).whole :: (reading d (some token) r).links := by
        simp only [reading, hk]
      rw [hlinks]
      exact .cons ⟨some token, rfl⟩ (ihr (some token))
    · have hlinks : (reading d parent (.node token l r)).links =
          [(reading d parent (.node token l r)).whole] := by
        cases hk : token.kind <;> simp_all [reading, Reading.ofWhole]
      rw [hlinks]
      exact .cons ⟨parent, rfl⟩ .nil

/-- Only a placeholder is read differently under another parent. -/
theorem whole_eq_ofTree (parent : Option Token) (h : t.kind ≠ .missing) :
    (reading d parent t).whole = ofTree d t := by
  cases t with
  | leaf token =>
    cases hk : token.kind <;> simp_all [reading, Reading.ofWhole, ofLeaf, ofTree, Tree.kind,
      Tree.token]
  | node token l r =>
    cases hk : token.kind <;> simp_all [reading, Reading.ofWhole, ofTree, Tree.kind, Tree.token]

theorem IsOf.literal_kind {token : Token} (h : IsOf d (.literal token) t) :
    t.kind = .literal ∧ t.token = token := by
  obtain ⟨parent, h⟩ := h
  cases t with
  | leaf t =>
    cases hk : t.kind <;> simp_all [reading, Reading.ofWhole, ofLeaf, Tree.kind, Tree.token]
  | node t l r =>
    cases hk : t.kind <;> simp_all [reading, Reading.ofWhole, Tree.kind, Tree.token]

theorem IsOf.name_kind {token : Token} (h : IsOf d (.name token) t) :
    t.kind = .identifier ∧ t.token = token := by
  obtain ⟨parent, h⟩ := h
  cases t with
  | leaf t =>
    cases hk : t.kind <;> simp_all [reading, Reading.ofWhole, ofLeaf, Tree.kind, Tree.token]
  | node t l r =>
    cases hk : t.kind <;> simp_all [reading, Reading.ofWhole, Tree.kind, Tree.token]

theorem IsOf.absent_kind {owner : Option Token} (h : IsOf d (.absent owner) t) :
    t.kind = .missing := by
  obtain ⟨parent, h⟩ := h
  cases t with
  | leaf t =>
    cases hk : t.kind <;> simp_all [reading, Reading.ofWhole, ofLeaf, Tree.kind, Tree.token]
  | node t l r =>
    cases hk : t.kind <;> simp_all [reading, Reading.ofWhole, Tree.kind, Tree.token]

/-- Each of several terms is what one of the trees is read as. -/
theorem IsOf.exists_of_mem {term : Term} {terms : List Term} {us : List Tree}
    (h : List.Forall₂ (IsOf d) terms us) (hterm : term ∈ terms) : ∃ u ∈ us, IsOf d term u := by
  induction h with
  | nil => cases hterm
  | cons hu _ ih =>
    rcases List.mem_cons.mp hterm with rfl | hterm
    · exact ⟨_, List.mem_cons_self, hu⟩
    · obtain ⟨u, hmem, hof⟩ := ih hterm
      exact ⟨u, List.mem_cons_of_mem _ hmem, hof⟩

/-- A call is read of a node of its sort, and its operands are read of the operands of the node. -/
theorem IsOf.call_kind {sort : CallSort} {tree : Tree} {operands : List Term}
    (h : IsOf d (.call sort tree operands) t) :
    callSort? t.kind = some sort ∧ tree = t ∧ List.Forall₂ (IsOf d) operands (t.operands d) := by
  obtain ⟨parent, h⟩ := h
  cases t with
  | leaf token =>
    cases hk : token.kind <;>
      simp_all [reading, Reading.ofWhole, ofLeaf, Tree.kind, Tree.token, callSort?, Tree.operands]
  | node token l r =>
    have hl : IsOf d (reading d (some token) l).whole l := ⟨_, rfl⟩
    have hr : IsOf d (reading d (some token) r).whole r := ⟨_, rfl⟩
    cases hk : token.kind with
    | operator =>
      simp only [reading, hk, Reading.ofWhole, call.injEq] at h
      obtain ⟨rfl, rfl, rfl⟩ := h
      refine ⟨by simp [Tree.kind, Tree.token, hk, callSort?], rfl, ?_⟩
      rw [Tree.operands, hk]
      exact .cons hl (.cons hr .nil)
    | unary =>
      simp only [reading, hk, Reading.ofWhole, call.injEq] at h
      obtain ⟨rfl, rfl, rfl⟩ := h
      refine ⟨by simp [Tree.kind, Tree.token, hk, callSort?], rfl, ?_⟩
      rw [Tree.operands, hk]
      cases d.sideOf token.text with
      | before => exact .cons hr .nil
      | after => exact .cons hl .nil
    | call =>
      simp only [reading, hk, Reading.ofWhole, call.injEq] at h
      obtain ⟨rfl, rfl, rfl⟩ := h
      refine ⟨by simp [Tree.kind, Tree.token, hk, callSort?], rfl, ?_⟩
      rw [Tree.operands, hk]
      simp only [Tree.arguments]
      split
      · exact .nil
      · exact isOf_links d (some token) r
    | _ => simp [reading, hk, Reading.ofWhole] at h

end Term

end Reckon
