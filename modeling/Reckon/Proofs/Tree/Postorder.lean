import Reckon.Proofs.Tree.Arena

/-!
# Trees and postorder

An arena lays out the tokens that it is built from: every node stands behind its children, names
them and is named by them, and a walk from the root meets the nodes in the order in which they stand
(`Arena.LaysOut`).  Building a tree and listing its tokens in postorder undo each other
(`Arena.ofPolish_inverse`).
-/

namespace Reckon

namespace Arena

variable {a : Arena} {t : Tree} {i : Nat}

/-- Node `above` has node `id` as its left or right child. -/
def HasChild (a : Arena) (above id : Nat) : Prop :=
  ∃ n, a.nodes[above]? = some n ∧ (n.left = some id ∨ n.right = some id)

/-- A walk from a node: first below its left child, then below its right one, then the node. -/
inductive Walk (a : Arena) : Nat → List Nat → Prop
  | leaf {id : Nat} {token : Token} (h : a.nodes[id]? = some ⟨token, none, none⟩) : Walk a id [id]
  | node {id left right : Nat} {token : Token} {ls rs : List Nat}
      (h : a.nodes[id]? = some ⟨token, some left, some right⟩) (hleft : Walk a left ls)
      (hright : Walk a right rs) : Walk a id (ls ++ (rs ++ [id]))

/-- The arena lays out tokens in postorder. -/
structure LaysOut (a : Arena) (ts : List Token) : Prop where
  tokens : a.nodes.toList.map (·.token) = ts
  dictionary : a.dictionary = (List.range ts.length).map fun i => (i, i)
  /-- Children come in pairs and stand before the node above them. -/
  children : ∀ (id : Nat) (n : Node), a.nodes[id]? = some n →
    n.left = none ∧ n.right = none ∨
      ∃ left right, n.left = some left ∧ n.right = some right ∧ left < right ∧ right < id
  root_last : a.root + 1 = ts.length
  parent_root : a.parent? a.root = none
  /-- Every other node is the child of one node, which it knows. -/
  parent : ∀ id < ts.length, id ≠ a.root →
    ∃ above < ts.length, a.parent? id = some above ∧ ∀ i, a.HasChild i id ↔ i = above
  walk : a.Walk a.root (List.range ts.length)

/-! ## Nodes of a tree that is laid out -/

theorem toList_nodes_arena (t : Tree) : t.arena.nodes.toList = t.entries.map (·.node) :=
  List.toList_toArray

theorem size_nodes_arena (t : Tree) : t.arena.nodes.size = t.entries.length := by
  rw [← Array.length_toList, toList_nodes_arena, List.length_map]

theorem getElem?_nodes_arena {n : Node} :
    t.arena.nodes[i]? = some n ↔ ∃ e ∈ t.entries, e.id = i ∧ e.node = n := by
  rw [Tree.arena, List.getElem?_toArray, List.getElem?_map, Option.map_eq_some_iff]
  constructor
  · rintro ⟨e, he, rfl⟩
    obtain ⟨hmem, hid⟩ := Tree.getElem?_entries.mp he
    exact ⟨e, hmem, hid, rfl⟩
  · rintro ⟨e, hmem, hid, rfl⟩
    exact ⟨e, Tree.getElem?_entries.mpr ⟨hmem, hid⟩, rfl⟩

theorem getElem?_nodes_of_leaf {e : Tree.Entry} {token : Token} (he : e ∈ t.entries)
    (htree : e.tree = .leaf token) : t.arena.nodes[e.id]? = some ⟨token, none, none⟩ := by
  refine getElem?_nodes_arena.mpr ⟨e, he, rfl, ?_⟩
  simp [Tree.Entry.node, Tree.Entry.left?, Tree.Entry.right?, htree, Tree.token]

theorem getElem?_nodes_of_node {e : Tree.Entry} {token : Token} {l r : Tree} (he : e ∈ t.entries)
    (htree : e.tree = .node token l r) :
    t.arena.nodes[e.id]? = some ⟨token, some (e.id - 1 - r.size), some (e.id - 1)⟩ := by
  refine getElem?_nodes_arena.mpr ⟨e, he, rfl, ?_⟩
  simp [Tree.Entry.node, Tree.Entry.left?, Tree.Entry.right?, htree, Tree.token]

theorem parent?_arena {e : Tree.Entry} (h : e ∈ t.entries) : t.arena.parent? e.id = e.parent := by
  rw [parent?, Tree.arena, List.getElem?_toArray, List.getElem?_map,
    Tree.getElem?_entries.mpr ⟨h, rfl⟩]
  rfl

theorem hasChild_arena {above : Nat} : t.arena.HasChild above i ↔
    ∃ e ∈ t.entries, e.id = above ∧ (e.left? = some i ∨ e.right? = some i) := by
  constructor
  · rintro ⟨n, hn, hchild⟩
    obtain ⟨e, he, hid, rfl⟩ := getElem?_nodes_arena.mp hn
    exact ⟨e, he, hid, hchild⟩
  · rintro ⟨e, he, hid, hchild⟩
    exact ⟨e.node, getElem?_nodes_arena.mpr ⟨e, he, hid, rfl⟩, hchild⟩

theorem children_arena {n : Node} (h : t.arena.nodes[i]? = some n) :
    n.left = none ∧ n.right = none ∨
      ∃ left right, n.left = some left ∧ n.right = some right ∧ left < right ∧ right < i := by
  obtain ⟨e, he, rfl, rfl⟩ := getElem?_nodes_arena.mp h
  have hsize := Tree.size_le_of_mem_entries he
  cases htree : e.tree with
  | leaf token => exact .inl ⟨by simp [Tree.Entry.node, Tree.Entry.left?, htree],
      by simp [Tree.Entry.node, Tree.Entry.right?, htree]⟩
  | node token l r =>
    rw [htree, Tree.size] at hsize
    have hl := l.size_pos
    have hr := r.size_pos
    exact .inr ⟨e.id - 1 - r.size, e.id - 1, by simp [Tree.Entry.node, Tree.Entry.left?, htree],
      by simp [Tree.Entry.node, Tree.Entry.right?, htree], by omega, by omega⟩

/-- From each node a walk goes through the numbers below it. -/
theorem walk_arena {u : Tree} {e : Tree.Entry} (he : e ∈ t.entries) (hu : e.tree = u) :
    t.arena.Walk e.id (List.range' (e.id + 1 - u.size) u.size) := by
  induction u generalizing e with
  | leaf token => exact .leaf (getElem?_nodes_of_leaf he hu)
  | node token l r ihl ihr =>
    have hsize := Tree.size_le_of_mem_entries he
    rw [hu, Tree.size] at hsize
    obtain ⟨hleft, hright⟩ := Tree.mem_entries_node_children he hu
    have hwalk := Walk.node (getElem?_nodes_of_node he hu) (ihl hleft rfl) (ihr hright rfl)
    have hl := l.size_pos
    have hr := r.size_pos
    have hleftFirst : e.id - 1 - r.size + 1 - l.size = e.id + 1 - (l.size + r.size + 1) := by omega
    have hrightFirst : e.id - 1 + 1 - r.size = e.id + 1 - (l.size + r.size + 1) + l.size := by
      omega
    have hlast : e.id + 1 - (l.size + r.size + 1) + (l.size + r.size) = e.id := by omega
    rw [hleftFirst, hrightFirst, ← List.append_assoc, List.range'_append_1] at hwalk
    rw [Tree.size, ← List.range'_append_1, hlast]
    exact hwalk

theorem laysOut_arena (t : Tree) : t.arena.LaysOut t.postorder := by
  have hpos := t.size_pos
  have hroot : ⟨t, t.arena.root, none⟩ ∈ t.entries := t.rootEntry_mem_entries
  have hids := Tree.map_id_entriesFrom 0 none t
  rw [← List.range_eq_range', ← Tree.length_postorder] at hids
  refine ⟨?_, ?_, fun id n => children_arena, ?_, parent?_arena hroot, ?_, ?_⟩
  · rw [Tree.arena, List.map_map]
    exact Tree.map_token_entriesFrom 0 none t
  · rw [Tree.arena, ← hids, List.map_map]
    rfl
  · rw [Tree.length_postorder]
    exact Nat.sub_add_cancel hpos
  · intro id hid hne
    obtain ⟨e, he, rfl⟩ : ∃ e ∈ t.entries, e.id = id := by
      rw [← List.mem_range, ← hids] at hid
      exact List.mem_map.mp hid
    rcases Tree.parent_mem_entriesFrom he with rfl | ⟨above, habove, hparent, hchild⟩
    · exact absurd (congrArg (· - 1) (Nat.zero_add t.size)) hne
    · have hlt : above.id < t.postorder.length := by
        rw [← List.mem_range, ← hids]
        exact List.mem_map_of_mem habove
      refine ⟨above.id, hlt, by rw [parent?_arena he, hparent], fun i => ?_⟩
      rw [hasChild_arena]
      constructor
      · rintro ⟨e', he', rfl, hchild'⟩
        have hparent' := Tree.parent_eq_of_child he he' hchild'
        exact Option.some.inj (hparent'.symm.trans hparent)
      · rintro rfl
        exact ⟨above, habove, rfl, hchild⟩
  · have hwalk := walk_arena hroot rfl
    have hfirst : t.arena.root + 1 - t.size = 0 := by
      show t.size - 1 + 1 - t.size = 0
      omega
    rwa [hfirst, ← List.range_eq_range', ← Tree.length_postorder] at hwalk

theorem tree?_arena (t : Tree) : t.arena.tree? = some t := by
  have htop := foldAt_top [] t []
  rwa [Tree.forestSize, Nat.zero_add] at htop

/-- There is no arena of no tokens, nor of several operands that nothing joins. -/
theorem code_of_ofPolish {ts : List Token} {fault : Fault} (h : ofPolish ts = .error fault) :
    fault.code = if ts = [] then .emptyExpression else .residualOperands := by
  have hspelt := Tree.flatMap_postorder_foldl_shift [] ts
  rw [ofPolish_eq, Tree.ofPolish_eq_sole] at h
  generalize ts.foldl Tree.shift [] = forest at h hspelt
  match forest with
  | [] =>
    obtain rfl : [] = ts := by simpa using hspelt
    rw [← Except.error.inj h]
    rfl
  | [t] => cases h
  | right :: left :: below =>
    have hne : ts ≠ [] := by
      rintro rfl
      have hlength := congrArg List.length hspelt
      have hpos := right.size_pos
      simp [Tree.length_postorder] at hlength
      omega
    rw [← Except.error.inj h, if_neg hne]
    rfl

/-- Building a tree and listing its tokens in postorder undo each other.  An arena that is built
lays out its tokens; a tree whose leaves are its operands is built again from its own; and there is
no tree just of no tokens or of several operands that nothing joins. -/
theorem ofPolish_inverse :
    (∀ ts a, ofPolish ts = .ok a → a.LaysOut ts ∧
      ∃ t, Tree.ofPolish ts = .ok t ∧ a.tree? = some t ∧ t.postorder = ts) ∧
    (∀ t : Tree, t.Joined → ∃ a, ofPolish t.postorder = .ok a ∧ a.tree? = some t) ∧
    (∀ ts, (∃ fault, ofPolish ts = .error fault ∧ fault.code = .emptyExpression) ↔ ts = []) ∧
    ∀ ts fault, ofPolish ts = .error fault → ts ≠ [] → fault.code = .residualOperands := by
  refine ⟨fun ts a h => ?_, fun t ht => ⟨t.arena, ?_, tree?_arena t⟩, fun ts => ⟨?_, ?_⟩, ?_⟩
  · obtain ⟨t, ht, rfl⟩ := exists_tree_of_ofPolish h
    have hpostorder := Tree.postorder_of_ofPolish ht
    exact ⟨hpostorder ▸ laysOut_arena t, t, ht, tree?_arena t, hpostorder⟩
  · rw [ofPolish_eq, ht.ofPolish_postorder]
    rfl
  · rintro ⟨fault, h, hcode⟩
    by_contra hne
    rw [code_of_ofPolish h, if_neg hne] at hcode
    cases hcode
  · rintro rfl
    exact ⟨.empty, rfl, rfl⟩
  · intro ts fault h hne
    rw [code_of_ofPolish h, if_neg hne]

/-- In `- 1 2 + *` the first operator finds nothing to join. -/
def stranded : List Token :=
  [⟨.operator, "-", some 0⟩, ⟨.literal, "1", some 2⟩, ⟨.literal, "2", some 4⟩,
    ⟨.operator, "+", some 6⟩, ⟨.operator, "*", some 8⟩]

/-- A sum whose right operand is missing. -/
def halfSum : Tree :=
  .node ⟨.operator, "+", some 2⟩ (.leaf ⟨.literal, "1", some 0⟩) (.leaf .placeholder)

/-- An operator that finds nothing to join becomes a leaf, which a later one joins or none does. -/
theorem ofPolish_inverse_of_stranded :
    (∃ a, ofPolish stranded = .ok a ∧ a.parents = #[some 4, some 3, some 3, some 4, none] ∧
      a.LaysOut stranded) ∧
    (∃ a, ofPolish halfSum.postorder = .ok a ∧ a.tree? = some halfSum) ∧
    ∃ fault, ofPolish (stranded.take 4) = .error fault ∧ fault.code = .residualOperands := by
  obtain ⟨hlaid, hbuilt, -, hresidual⟩ := ofPolish_inverse
  have hjoined : halfSum.Joined := ⟨nofun, rfl, rfl⟩
  refine ⟨⟨_, rfl, by decide, (hlaid stranded _ rfl).1⟩, hbuilt halfSum hjoined, ?_⟩
  exact ⟨_, rfl, hresidual (stranded.take 4) _ rfl (List.cons_ne_nil _ _)⟩

end Arena

end Reckon
