import Reckon.Tree.Table

/-!
# Numbered nodes

`Tree.entries` numbers the nodes of a tree in postorder.  The nodes of a subtree stand together,
its root last (`Tree.entriesFrom_node`), so the numbers of children are known from the sizes of
subtrees: every node finds its children among the entries (`Tree.children_mem_entriesFrom`), and
every node but the last one is the child of another (`Tree.parent_mem_entriesFrom`).
-/

namespace Reckon.Tree

variable {t l r : Tree} {token : Token} {first : Nat} {parent : Option Nat} {e e' : Entry}

/-- The entries of a tree whose nodes are numbered from `first`. -/
def entriesFrom (first : Nat) (parent : Option Nat) (t : Tree) : List Entry :=
  t.entriesOnto first parent []

theorem size_pos (t : Tree) : 0 < t.size := by
  cases t <;> simp [size]

/-- The root has the last number. -/
theorem last_node (first : Nat) (token : Token) (l r : Tree) :
    first + (node token l r).size - 1 = first + l.size + r.size := by
  simp only [size]
  omega

/-! ## The row of entries -/

theorem entriesOnto_eq (first : Nat) (parent : Option Nat) (t : Tree) (tail : List Entry) :
    t.entriesOnto first parent tail = t.entriesFrom first parent ++ tail := by
  induction t generalizing first parent tail with
  | leaf token => rfl
  | node token l r ihl ihr =>
    simp only [entriesFrom, entriesOnto]
    rw [ihl, ihr, ihl _ _ (r.entriesOnto _ _ _), ihr _ _ [_]]
    simp

theorem entriesFrom_leaf (first : Nat) (parent : Option Nat) (token : Token) :
    (leaf token).entriesFrom first parent = [⟨leaf token, first, parent⟩] := rfl

theorem entriesFrom_node (first : Nat) (parent : Option Nat) (token : Token) (l r : Tree) :
    (node token l r).entriesFrom first parent =
      l.entriesFrom first (some (first + l.size + r.size)) ++
        (r.entriesFrom (first + l.size) (some (first + l.size + r.size)) ++
          [⟨node token l r, first + l.size + r.size, parent⟩]) := by
  rw [entriesFrom, entriesOnto, entriesOnto_eq, entriesOnto_eq]

theorem mem_entriesFrom_node : e ∈ (node token l r).entriesFrom first parent ↔
    e ∈ l.entriesFrom first (some (first + l.size + r.size)) ∨
      e ∈ r.entriesFrom (first + l.size) (some (first + l.size + r.size)) ∨
      e = ⟨node token l r, first + l.size + r.size, parent⟩ := by
  rw [entriesFrom_node, List.mem_append, List.mem_append, List.mem_singleton]

theorem map_id_entriesFrom (first : Nat) (parent : Option Nat) (t : Tree) :
    (t.entriesFrom first parent).map (·.id) = List.range' first t.size := by
  induction t generalizing first parent with
  | leaf token => rfl
  | node token l r ihl ihr =>
    rw [entriesFrom_node, List.map_append, List.map_append, ihl, ihr, size, Nat.add_assoc,
      ← List.range'_append_1, ← List.range'_append_1, List.append_assoc]
    rfl

theorem length_entriesFrom (first : Nat) (parent : Option Nat) (t : Tree) :
    (t.entriesFrom first parent).length = t.size := by
  simpa using congrArg List.length (map_id_entriesFrom first parent t)

theorem map_token_entriesFrom (first : Nat) (parent : Option Nat) (t : Tree) :
    (t.entriesFrom first parent).map (·.tree.token) = t.postorder := by
  induction t generalizing first parent with
  | leaf token => rfl
  | node token l r ihl ihr =>
    rw [entriesFrom_node, List.map_append, List.map_append, ihl, ihr, postorder_node]
    rfl

/-- The root stands last. -/
theorem getLast?_entriesFrom (first : Nat) (parent : Option Nat) (t : Tree) :
    (t.entriesFrom first parent).getLast? = some ⟨t, first + t.size - 1, parent⟩ := by
  cases t with
  | leaf token => rfl
  | node token l r =>
    rw [entriesFrom_node, ← List.append_assoc, List.getLast?_append, last_node]
    rfl

theorem root_mem_entriesFrom (first : Nat) (parent : Option Nat) (t : Tree) :
    ⟨t, first + t.size - 1, parent⟩ ∈ t.entriesFrom first parent :=
  List.mem_of_getLast? (getLast?_entriesFrom first parent t)

/-! ## Nodes above and below -/

/-- In front of a node there is room for the subtree below it. -/
theorem first_add_size_le (h : e ∈ t.entriesFrom first parent) :
    first + e.tree.size ≤ e.id + 1 := by
  induction t generalizing first parent with
  | leaf token =>
    obtain rfl := List.mem_singleton.mp h
    exact Nat.le_refl _
  | node token l r ihl ihr =>
    rcases mem_entriesFrom_node.mp h with h | h | rfl
    · exact ihl h
    · have := ihr h
      omega
    · simp only [size]
      omega

theorem children_mem_entriesFrom (h : e ∈ t.entriesFrom first parent)
    (hnode : e.tree = node token l r) :
    ⟨l, e.id - 1 - r.size, some e.id⟩ ∈ t.entriesFrom first parent ∧
      ⟨r, e.id - 1, some e.id⟩ ∈ t.entriesFrom first parent := by
  induction t generalizing first parent with
  | leaf token =>
    obtain rfl := List.mem_singleton.mp h
    cases hnode
  | node token' l' r' ihl ihr =>
    simp only [mem_entriesFrom_node]
    rcases mem_entriesFrom_node.mp h with h | h | rfl
    · exact ⟨.inl (ihl h).1, .inl (ihl h).2⟩
    · exact ⟨.inr (.inl (ihr h).1), .inr (.inl (ihr h).2)⟩
    · cases hnode
      have hleft : first + l.size + r.size - 1 - r.size = first + l.size - 1 := by omega
      refine ⟨.inl ?_, .inr (.inl (root_mem_entriesFrom _ _ _))⟩
      rw [hleft]
      exact root_mem_entriesFrom _ _ _

/-- The node is the left or the right child of another. -/
def Entry.IsChildOf (e above : Entry) : Prop :=
  e.parent = some above.id ∧ (above.left? = some e.id ∨ above.right? = some e.id)

theorem parent_mem_entriesFrom (h : e ∈ t.entriesFrom first parent) :
    e = ⟨t, first + t.size - 1, parent⟩ ∨ ∃ above ∈ t.entriesFrom first parent, e.IsChildOf above := by
  induction t generalizing first parent with
  | leaf token => exact .inl (List.mem_singleton.mp h)
  | node token l r ihl ihr =>
    have hroot : ⟨node token l r, first + l.size + r.size, parent⟩ ∈
        (node token l r).entriesFrom first parent := mem_entriesFrom_node.mpr (.inr (.inr rfl))
    rcases mem_entriesFrom_node.mp h with h | h | rfl
    · rcases ihl h with rfl | ⟨above, habove, hchild⟩
      · refine .inr ⟨_, hroot, rfl, .inl (congrArg some ?_)⟩
        show first + l.size + r.size - 1 - r.size = first + l.size - 1
        omega
      · exact .inr ⟨above, mem_entriesFrom_node.mpr (.inl habove), hchild⟩
    · rcases ihr h with rfl | ⟨above, habove, hchild⟩
      · exact .inr ⟨_, hroot, rfl, .inr rfl⟩
      · exact .inr ⟨above, mem_entriesFrom_node.mpr (.inr (.inl habove)), hchild⟩
    · exact .inl (by rw [last_node])

/-! ## Entries by number -/

/-- The entry of the root. -/
def rootEntry (t : Tree) : Entry := ⟨t, t.size - 1, none⟩

theorem rootEntry_mem_entries (t : Tree) : t.rootEntry ∈ t.entries := by
  have h := root_mem_entriesFrom 0 none t
  rwa [Nat.zero_add] at h

theorem pairwise_id_entries (t : Tree) : t.entries.Pairwise fun a b => a.id < b.id := by
  have hids : (t.entries.map (·.id)).Pairwise (· < ·) := by
    rw [entries, ← entriesFrom, map_id_entriesFrom]
    exact List.pairwise_lt_range'
  rwa [List.pairwise_map] at hids

theorem mem_entries_node_children (h : e ∈ t.entries) (hnode : e.tree = node token l r) :
    ⟨l, e.id - 1 - r.size, some e.id⟩ ∈ t.entries ∧ ⟨r, e.id - 1, some e.id⟩ ∈ t.entries :=
  children_mem_entriesFrom h hnode

theorem getElem?_entries {i : Nat} : t.entries[i]? = some e ↔ e ∈ t.entries ∧ e.id = i := by
  have hids : ∀ j (a : Entry), t.entries[j]? = some a → a.id = j := by
    intro j a ha
    have hid : (t.entries.map (·.id))[j]? = some a.id := by rw [List.getElem?_map, ha]; rfl
    rw [entries, ← entriesFrom, map_id_entriesFrom] at hid
    obtain ⟨hj, hid⟩ := List.getElem?_eq_some_iff.mp hid
    rw [List.getElem_range'] at hid
    omega
  constructor
  · exact fun h => ⟨List.mem_of_getElem? h, hids i e h⟩
  · rintro ⟨hmem, rfl⟩
    obtain ⟨j, hj⟩ := List.mem_iff_getElem?.mp hmem
    rwa [hids j e hj]

theorem id_lt_of_mem_entries (h : e ∈ t.entries) : e.id < t.entries.length :=
  (List.getElem?_eq_some_iff.mp (getElem?_entries.mpr ⟨h, rfl⟩)).1

theorem size_le_of_mem_entries (h : e ∈ t.entries) : e.tree.size ≤ e.id + 1 := by
  have hsize : 0 + e.tree.size ≤ e.id + 1 := first_add_size_le h
  rwa [Nat.zero_add] at hsize

/-- A number belongs to one entry. -/
theorem eq_of_id_eq (h : e ∈ t.entries) (h' : e' ∈ t.entries) (hid : e.id = e'.id) : e = e' := by
  have hi := getElem?_entries.mpr ⟨h, hid⟩
  rw [getElem?_entries.mpr ⟨h', rfl⟩] at hi
  exact (Option.some.inj hi).symm

/-- A child names the node above it. -/
theorem parent_eq_of_child (h : e ∈ t.entries) (h' : e' ∈ t.entries)
    (hchild : e'.left? = some e.id ∨ e'.right? = some e.id) : e.parent = some e'.id := by
  cases htree : e'.tree with
  | leaf token => simp [Entry.left?, Entry.right?, htree] at hchild
  | node token l r =>
    obtain ⟨hl, hr⟩ := mem_entries_node_children h' htree
    simp only [Entry.left?, Entry.right?, htree, Option.some.injEq] at hchild
    rcases hchild with hid | hid
    · rw [← eq_of_id_eq hl h hid]
    · rw [← eq_of_id_eq hr h hid]

end Reckon.Tree
