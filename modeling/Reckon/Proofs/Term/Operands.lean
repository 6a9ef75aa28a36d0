import Reckon.Proofs.Term.Reading
import Reckon.Proofs.Tree.Numbering

/-!
# Operands by number

`Tree.Entry.operands` are the nodes that a numbered node takes values from, and `Tree.Entry.read` are
all nodes that are reached in this way.  They come in the order of their numbers, none of them twice
(`Tree.Entry.read_sublist`), and they are the nodes that the root reaches (`Tree.mem_read_iff_reached`).
-/

namespace Reckon.Tree

variable {d : Dialect} {t l r : Tree} {token : Token} {first id : Nat} {parent : Option Nat}
  {e o : Entry}

/-! ## Operands -/

/-- The links of a chain whose first node is numbered `id`. -/
def chainEntries (id : Nat) (parent : Option Nat) : Tree → List Entry
  | leaf t => [⟨leaf t, id, parent⟩]
  | node t l r =>
    if t.kind = .separator then ⟨l, id - 1 - r.size, some id⟩ :: r.chainEntries (id - 1) (some id)
    else [⟨node t l r, id, parent⟩]

/-- The nodes that a node takes values from. -/
def Entry.operands (d : Dialect) (e : Entry) : List Entry :=
  match e.tree with
  | leaf _ => []
  | node t l r =>
    let left : Entry := ⟨l, e.id - 1 - r.size, some e.id⟩
    let right : Entry := ⟨r, e.id - 1, some e.id⟩
    match t.kind with
    | .operator => [left, right]
    | .unary =>
      match d.sideOf t.text with
      | .before => [right]
      | .after => [left]
    | .call => if r.isMissing then [] else r.chainEntries (e.id - 1) (some e.id)
    | .literal | .identifier | .opening | .closing | .separator | .missing => []

theorem map_tree_chainEntries (id : Nat) (parent : Option Nat) (t : Tree) :
    (t.chainEntries id parent).map (·.tree) = t.chain := by
  induction t generalizing id parent with
  | leaf token => rfl
  | node token l r ihl ihr =>
    rw [chainEntries, chain]
    split
    · rw [List.map_cons, ihr]
    · rfl

/-- They are the operands of the tree. -/
theorem Entry.map_tree_operands (d : Dialect) (e : Entry) :
    (e.operands d).map (·.tree) = e.tree.operands d := by
  obtain ⟨tree, id, parent⟩ := e
  cases tree with
  | leaf token => rfl
  | node token l r =>
    simp only [operands, Tree.operands]
    cases token.kind with
    | unary => cases d.sideOf token.text <;> rfl
    | call =>
      simp only [Tree.arguments]
      split
      · rfl
      · exact map_tree_chainEntries _ _ _
    | _ => rfl

theorem mem_entries_of_mem_chainEntries (h : ⟨r, id, parent⟩ ∈ t.entries)
    (ho : o ∈ r.chainEntries id parent) : o ∈ t.entries ∧ o.id ≤ id := by
  induction r generalizing id parent with
  | leaf token =>
    rw [List.mem_singleton.mp ho]
    exact ⟨h, Nat.le_refl id⟩
  | node token l r ihl ihr =>
    obtain ⟨hleft, hright⟩ := mem_entries_node_children h rfl
    rw [chainEntries] at ho
    split at ho
    · rcases List.mem_cons.mp ho with rfl | ho
      · exact ⟨hleft, Nat.le_trans (Nat.sub_le _ _) (Nat.sub_le _ _)⟩
      · obtain ⟨hmem, hle⟩ := ihr hright ho
        exact ⟨hmem, Nat.le_trans hle (Nat.sub_le _ _)⟩
    · rw [List.mem_singleton.mp ho]
      exact ⟨h, Nat.le_refl id⟩

/-- Operands are nodes of the tree and stand before the node that takes them. -/
theorem Entry.mem_entries_of_mem_operands (h : e ∈ t.entries) (ho : o ∈ e.operands d) :
    o ∈ t.entries ∧ o.id < e.id := by
  have hsize := size_le_of_mem_entries h
  rw [operands] at ho
  split at ho
  · cases ho
  · rename_i token l r htree
    obtain ⟨hleft, hright⟩ := mem_entries_node_children h htree
    have hl := l.size_pos
    have hr := r.size_pos
    rw [htree, size] at hsize
    have hidLeft : e.id - 1 - r.size < e.id := by omega
    have hidRight : e.id - 1 < e.id := by omega
    split at ho
    · rcases List.mem_pair.mp ho with rfl | rfl
      · exact ⟨hleft, hidLeft⟩
      · exact ⟨hright, hidRight⟩
    · split at ho <;> rw [List.mem_singleton.mp ho]
      · exact ⟨hright, hidRight⟩
      · exact ⟨hleft, hidLeft⟩
    · split at ho
      · cases ho
      · obtain ⟨hmem, hle⟩ := mem_entries_of_mem_chainEntries hright ho
        exact ⟨hmem, Nat.lt_of_le_of_lt hle hidRight⟩
    all_goals cases ho

theorem Entry.size_lt_of_mem_operands (h : o ∈ e.operands d) : o.tree.size < e.tree.size := by
  refine Tree.size_lt_of_mem_operands (d := d) ?_
  rw [← Entry.map_tree_operands]
  exact List.mem_map_of_mem h

/-! ## Nodes that are read -/

/-- The nodes that evaluation reaches, operands before the node that takes them. -/
def Entry.read (d : Dialect) (e : Entry) : List Entry :=
  ((e.operands d).attach.flatMap fun o => Entry.read d o.1) ++ [e]
termination_by e.tree.size
decreasing_by exact size_lt_of_mem_operands o.2

theorem Entry.read_eq (d : Dialect) (e : Entry) :
    e.read d = (e.operands d).flatMap (Entry.read d) ++ [e] := by
  rw [read, List.flatMap_subtype (g := Entry.read d) fun _ _ => rfl, List.unattach_attach]

theorem Entry.mem_read_self (d : Dialect) (e : Entry) : e ∈ e.read d := by
  rw [read_eq]
  simp

/-- A node is read if the root is, and if a node is that takes a value from it. -/
inductive Reached (d : Dialect) (t : Tree) : Entry → Prop
  | root : Reached d t t.rootEntry
  | operand {e o : Entry} (h : Reached d t e) (ho : o ∈ e.operands d) : Reached d t o

theorem Entry.sublist_flatMap_read (d : Dialect) (es : List Entry) :
    es.Sublist (es.flatMap (Entry.read d)) := by
  induction es with
  | nil => exact .slnil
  | cons e es ih =>
    rw [List.flatMap_cons]
    exact (List.singleton_sublist.mpr (e.mem_read_self d)).append ih

/-- What is read below an operand is read below the node that takes it. -/
theorem Entry.read_sublist_of_mem_operands (h : o ∈ e.operands d) :
    (o.read d).Sublist (e.read d) := by
  rw [read_eq d e, List.flatMap_def]
  exact (List.sublist_flatten_of_mem (List.mem_map_of_mem h)).trans (List.sublist_append_left _ _)

/-- What is read below a node that is read is read as well. -/
theorem Entry.read_subset_of_mem_read (h : o ∈ e.read d) : o.read d ⊆ e.read d := by
  induction hn : e.tree.size using Nat.strongRecOn generalizing e with
  | _ n ih =>
    rw [read_eq, List.mem_append, List.mem_flatMap, List.mem_singleton] at h
    rcases h with ⟨u, hu, ho⟩ | rfl
    · have hsize := size_lt_of_mem_operands hu
      exact fun x hx => (read_sublist_of_mem_operands hu).subset (ih _ (hn ▸ hsize) ho rfl hx)
    · exact fun x hx => hx

theorem Reached.of_mem_read (h : Reached d t e) (ho : o ∈ e.read d) : Reached d t o := by
  induction hn : e.tree.size using Nat.strongRecOn generalizing e with
  | _ n ih =>
    rw [Entry.read_eq, List.mem_append, List.mem_flatMap, List.mem_singleton] at ho
    rcases ho with ⟨u, hu, ho⟩ | rfl
    · exact ih _ (hn ▸ Entry.size_lt_of_mem_operands hu) (h.operand hu) ho rfl
    · exact h

/-- The nodes that are read are those that the root reaches. -/
theorem mem_read_iff_reached : e ∈ t.rootEntry.read d ↔ Reached d t e := by
  refine ⟨fun h => Reached.root.of_mem_read h, fun h => ?_⟩
  induction h with
  | root => exact Entry.mem_read_self d _
  | @operand e o _ ho ih =>
    refine Entry.read_subset_of_mem_read ih ?_
    rw [Entry.read_eq]
    exact List.mem_append_left _ (List.mem_flatMap.mpr ⟨o, ho, Entry.mem_read_self d o⟩)

/-- The nodes below a node are read in the order of their numbers, and so are those below the links
of a chain. -/
theorem read_sublist_entriesFrom (d : Dialect) (first : Nat) (parent : Option Nat) (t : Tree) :
    (Entry.read d ⟨t, first + t.size - 1, parent⟩).Sublist (t.entriesFrom first parent) ∧
      ((t.chainEntries (first + t.size - 1) parent).flatMap (Entry.read d)).Sublist
        (t.entriesFrom first parent) := by
  induction t generalizing first parent with
  | leaf token =>
    have hread : Entry.read d ⟨leaf token, first, parent⟩ = [⟨leaf token, first, parent⟩] := by
      rw [Entry.read_eq]
      rfl
    rw [chainEntries, List.flatMap_singleton]
    show (Entry.read d ⟨leaf token, first, parent⟩).Sublist _ ∧
      (Entry.read d ⟨leaf token, first, parent⟩).Sublist _
    rw [hread]
    exact ⟨.refl _, .refl _⟩
  | node token l r ihl ihr =>
    rw [last_node]
    have hleft : first + l.size + r.size - 1 - r.size = first + l.size - 1 := by
      have := l.size_pos
      omega
    obtain ⟨hl, -⟩ := ihl first (some (first + l.size + r.size))
    obtain ⟨hr, hchain⟩ := ihr (first + l.size) (some (first + l.size + r.size))
    rw [entriesFrom_node, ← List.append_assoc]
    have hoperands : ((Entry.operands d
        ⟨node token l r, first + l.size + r.size, parent⟩).flatMap (Entry.read d)).Sublist
        (l.entriesFrom first (some (first + l.size + r.size)) ++
          r.entriesFrom (first + l.size) (some (first + l.size + r.size))) := by
      simp only [Entry.operands, hleft]
      split
      · simpa using hl.append hr
      · split
        · simpa using hr.trans (List.sublist_append_right _ _)
        · simpa using hl.trans (List.sublist_append_left _ _)
      · split
        · exact List.nil_sublist _
        · exact hchain.trans (List.sublist_append_right _ _)
      all_goals exact List.nil_sublist _
    have hread := hoperands.append (List.Sublist.refl [⟨node token l r, first + l.size + r.size, parent⟩])
    rw [← Entry.read_eq] at hread
    refine ⟨hread, ?_⟩
    rw [chainEntries]
    split
    · rw [List.flatMap_cons, hleft]
      exact (hl.append hchain).trans (List.sublist_append_left _ _)
    · rwa [List.flatMap_singleton]

theorem read_sublist_entries (d : Dialect) (t : Tree) :
    (t.rootEntry.read d).Sublist t.entries := by
  have h := (read_sublist_entriesFrom d 0 none t).1
  rwa [Nat.zero_add] at h

/-! ## Terms -/

/-- The token of the node above. -/
def Entry.owner (t : Tree) (e : Entry) : Option Token :=
  e.parent.bind fun id => (t.entries[id]?).map (·.tree.token)

/-- What the node is read as. -/
def Entry.term (d : Dialect) (t : Tree) (e : Entry) : Term :=
  (Term.reading d (e.owner t) e.tree).whole

theorem Entry.isOf_term (d : Dialect) (t : Tree) (e : Entry) : Term.IsOf d (e.term d t) e.tree :=
  ⟨_, rfl⟩

theorem Entry.owner_of_parent (h : e ∈ t.entries) (ho : o.parent = some e.id) :
    o.owner t = some e.tree.token := by
  rw [owner, ho, Option.bind_some, getElem?_entries.mpr ⟨h, rfl⟩]
  rfl

theorem links_eq_map_term (h : ⟨r, id, parent⟩ ∈ t.entries) :
    (Term.reading d (Entry.owner t ⟨r, id, parent⟩) r).links =
      (r.chainEntries id parent).map (Entry.term d t) := by
  induction r generalizing id parent with
  | leaf token => rfl
  | node token l r ihl ihr =>
    obtain ⟨-, hright⟩ := mem_entries_node_children h rfl
    have hlinks := ihr hright
    have hleft : Entry.owner t ⟨l, id - 1 - r.size, some id⟩ = some token :=
      Entry.owner_of_parent h rfl
    rw [Entry.owner_of_parent h rfl] at hlinks
    rw [chainEntries]
    split
    · rename_i hk
      rw [List.map_cons, ← hlinks, Entry.term, hleft]
      simp only [Term.reading, hk, Tree.token]
    · cases hk : token.kind <;>
        simp_all [Term.reading, Term.Reading.ofWhole, Entry.term]

/-- A call is read with the terms of its operands. -/
theorem Entry.term_of_callSort? {sort : CallSort} (h : e ∈ t.entries)
    (hk : Term.callSort? e.tree.kind = some sort) :
    e.term d t = .call sort e.tree ((e.operands d).map (Entry.term d t)) := by
  obtain ⟨tree, id, parent⟩ := e
  cases tree with
  | leaf token =>
    have hk : Term.callSort? token.kind = some sort := hk
    cases hkind : token.kind <;> rw [hkind] at hk <;> cases hk <;>
      simp [term, operands, Term.reading, Term.Reading.ofWhole, Term.ofLeaf, hkind]
  | node token l r =>
    obtain ⟨-, hright⟩ := mem_entries_node_children h rfl
    have hlinks := links_eq_map_term (d := d) hright
    have hl : owner t ⟨l, id - 1 - r.size, some id⟩ = some token := owner_of_parent h rfl
    have hr : owner t ⟨r, id - 1, some id⟩ = some token := owner_of_parent h rfl
    rw [hr] at hlinks
    have hk : Term.callSort? token.kind = some sort := hk
    cases hkind : token.kind <;> rw [hkind] at hk <;> cases hk <;>
      simp only [term, operands, Term.reading, Term.Reading.ofWhole, hkind]
    · simp only [List.map_cons, List.map_nil, term, hl, hr]
    · cases d.sideOf token.text <;> simp only [List.map_cons, List.map_nil, term, hl, hr]
    · split
      · rfl
      · rw [hlinks]

/-- What is no call is read like a leaf. -/
theorem Entry.term_of_callSort?_none (t : Tree) (hk : Term.callSort? e.tree.kind = none) :
    e.term d t = Term.ofLeaf (e.owner t) e.tree.token := by
  obtain ⟨tree, id, parent⟩ := e
  cases tree with
  | leaf token => rfl
  | node token l r =>
    have hk : Term.callSort? token.kind = none := hk
    cases hkind : token.kind <;> rw [hkind] at hk <;> cases hk <;>
      simp [term, Term.reading, Term.Reading.ofWhole, Term.ofLeaf, Tree.token, hkind]

end Reckon.Tree
