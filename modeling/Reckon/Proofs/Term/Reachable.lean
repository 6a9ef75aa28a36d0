import Reckon.Proofs.Term.Judgment
import Reckon.Proofs.Tree.Postorder

/-!
# Nodes that the root reaches

The arena of a tree tells for each number what the tree tells of the node: its token, its operands
and the token above it.  The marks of `Arena.reachable` are on the nodes that are read, and on no
other (`Arena.reachable_arena`).
-/

namespace Reckon

variable {d : Dialect} {t r : Tree} {e : Tree.Entry} {id : Nat} {parent : Option Nat}

namespace Arena

/-! ## Nodes by number -/

theorem token?_arena (h : e ∈ t.entries) : t.arena.token? e.id = some e.tree.token := by
  rw [token?, getElem?_nodes_arena.mpr ⟨e, h, rfl, rfl⟩]
  rfl

theorem argumentText?_arena (h : e ∈ t.entries) :
    t.arena.argumentText? e.id = e.tree.argumentText? := by
  rw [argumentText?, token?_arena h]
  rfl

theorem owner_arena (h : e ∈ t.entries) :
    (t.arena.parent? e.id).bind t.arena.token? = e.owner t := by
  rw [parent?_arena h, Tree.Entry.owner]
  congr 1
  funext id
  rw [token?, Tree.arena, List.getElem?_toArray, List.getElem?_map, Option.map_map]
  rfl

theorem chain_arena (h : ⟨r, id, parent⟩ ∈ t.entries) :
    t.arena.chain id = (r.chainEntries id parent).map (·.id) := by
  induction r generalizing id parent with
  | leaf token =>
    rw [chain, getElem?_nodes_arena.mpr ⟨_, h, rfl, rfl⟩]
    rfl
  | node token l r _ ihr =>
    obtain ⟨-, hright⟩ := Tree.mem_entries_node_children h rfl
    have hsize := Tree.size_le_of_mem_entries h
    have hlt : id - 1 < id := by
      have hl := l.size_pos
      simp only [Tree.size] at hsize
      omega
    rw [chain, getElem?_nodes_arena.mpr ⟨_, h, rfl, rfl⟩, Tree.chainEntries]
    simp only [Tree.Entry.node, Tree.Entry.left?, Tree.Entry.right?, Tree.token, hlt, and_true]
    split
    · rw [ihr hright, List.map_cons]
    · rfl

theorem operands?_arena (h : e ∈ t.entries) : t.arena.operands? d e.node =
    (Term.callSort? e.tree.kind).map fun sort => (sort, (e.operands d).map (·.id)) := by
  obtain ⟨tree, id, parent⟩ := e
  cases tree with
  | leaf token =>
    simp only [operands?, Tree.Entry.node, Tree.token, Tree.kind, Tree.Entry.operands]
    cases token.kind with
    | unary => cases d.sideOf token.text <;> rfl
    | _ => rfl
  | node token l r =>
    obtain ⟨-, hright⟩ := Tree.mem_entries_node_children h rfl
    simp only [operands?, Tree.Entry.node, Tree.token, Tree.kind, Tree.Entry.operands]
    cases token.kind with
    | unary => cases d.sideOf token.text <;> rfl
    | call =>
      simp only [arguments, Tree.Entry.right?, token?_arena hright, Option.any_some]
      show some (CallSort.function, if r.isMissing then [] else t.arena.chain (id - 1)) = _
      rw [chain_arena hright]
      cases r.isMissing <;> rfl
    | _ => rfl

theorem operandsOf_arena (h : e ∈ t.entries) :
    t.arena.operandsOf d e.id = (e.operands d).map (·.id) := by
  rw [operandsOf, getElem?_nodes_arena.mpr ⟨e, h, rfl, rfl⟩, Option.bind_some, operands?_arena h]
  cases hk : Term.callSort? e.tree.kind with
  | some sort => rfl
  | none =>
    rw [Tree.Entry.operands_of_callSort?_none hk]
    rfl

/-! ## Marks -/

theorem mem_flatMap_read_cons {o : Tree.Entry} {es : List Tree.Entry} :
    o ∈ (e :: es).flatMap (Tree.Entry.read d) ↔
      o = e ∨ o ∈ ((e.operands d).reverse ++ es).flatMap (Tree.Entry.read d) := by
  rw [List.flatMap_cons, Tree.Entry.read_eq]
  simp only [List.mem_append, List.mem_flatMap, List.mem_reverse, List.mem_singleton,
    List.flatMap_append]
  rw [or_assoc, or_left_comm]

theorem length_flatMap_read_cons (e : Tree.Entry) (es : List Tree.Entry) :
    ((e :: es).flatMap (Tree.Entry.read d)).length =
      (((e.operands d).reverse ++ es).flatMap (Tree.Entry.read d)).length + 1 := by
  have hperm := ((e.operands d).reverse_perm).flatMap_right (Tree.Entry.read d)
  rw [List.flatMap_cons, Tree.Entry.read_eq, List.flatMap_append]
  simp only [List.length_append, hperm.length_eq, List.length_singleton]
  omega

/-- The marks depend on the operands of the nodes that are read, and on no others. -/
theorem mark_congr {f g : Nat → List Nat} {es : List Tree.Entry} {steps : Nat}
    {marked : Array Bool}
    (hf : ∀ e ∈ es.flatMap (Tree.Entry.read d), f e.id = (e.operands d).map (·.id))
    (hg : ∀ e ∈ es.flatMap (Tree.Entry.read d), g e.id = (e.operands d).map (·.id)) :
    mark f steps (es.map (·.id)) marked = mark g steps (es.map (·.id)) marked := by
  induction steps generalizing es marked with
  | zero => cases es <;> rfl
  | succ steps ih =>
    cases es with
    | nil => rfl
    | cons e es =>
      have hpending : ((e.operands d).map (·.id)).reverse ++ es.map (·.id) =
          ((e.operands d).reverse ++ es).map (·.id) := by
        rw [List.map_append, List.map_reverse]
      have hself : e ∈ (e :: es).flatMap (Tree.Entry.read d) :=
        mem_flatMap_read_cons.mpr (.inl rfl)
      rw [List.map_cons, mark, mark, hf e hself, hg e hself, hpending]
      exact ih (fun o ho => hf o (mem_flatMap_read_cons.mpr (.inr ho)))
        fun o ho => hg o (mem_flatMap_read_cons.mpr (.inr ho))

/-- With as many steps as there are nodes to be read, exactly these are marked. -/
theorem getElem?_mark {es : List Tree.Entry} {steps i : Nat} {marked : Array Bool}
    (hes : ∀ e ∈ es, e ∈ t.entries)
    (hsteps : (es.flatMap (Tree.Entry.read d)).length ≤ steps) :
    (mark (t.arena.operandsOf d) steps (es.map (·.id)) marked)[i]? = some true ↔
      marked[i]? = some true ∨
        i < marked.size ∧ ∃ o ∈ es.flatMap (Tree.Entry.read d), o.id = i := by
  induction steps generalizing es marked with
  | zero =>
    cases es with
    | nil => simp [mark]
    | cons e es =>
      rw [length_flatMap_read_cons] at hsteps
      exact absurd hsteps (Nat.not_succ_le_zero _)
  | succ steps ih =>
    cases es with
    | nil => simp [mark]
    | cons e es =>
      obtain ⟨he, hes⟩ := List.forall_mem_cons.mp hes
      rw [length_flatMap_read_cons, Nat.add_le_add_iff_right] at hsteps
      -- the operands of the latest node are pending before all others
      have hpending : (t.arena.operandsOf d e.id).reverse ++ es.map (·.id) =
          ((e.operands d).reverse ++ es).map (·.id) := by
        rw [operandsOf_arena he, List.map_append, List.map_reverse]
      have hentries : ∀ o ∈ (e.operands d).reverse ++ es, o ∈ t.entries := by
        intro o ho
        rcases List.mem_append.mp ho with ho | ho
        · exact (Tree.Entry.mem_entries_of_mem_operands he (List.mem_reverse.mp ho)).1
        · exact hes o ho
      rw [List.map_cons, mark, hpending, ih hentries hsteps, Array.size_setIfInBounds,
        Array.getElem?_setIfInBounds]
      simp only [mem_flatMap_read_cons]
      by_cases hid : e.id = i
      · subst hid
        by_cases hlt : e.id < marked.size
        · simp [hlt]
        · simp [hlt]
      · simp [hid]

theorem reachable_arena (h : e ∈ t.entries) :
    (t.arena.reachable d)[e.id]? = some true ↔ e ∈ t.rootEntry.read d := by
  have hroot : [t.arena.root] = [t.rootEntry].map (·.id) := rfl
  have hread : [t.rootEntry].flatMap (Tree.Entry.read d) = t.rootEntry.read d :=
    List.flatMap_singleton ..
  have hsteps : ([t.rootEntry].flatMap (Tree.Entry.read d)).length ≤ t.arena.nodes.size := by
    rw [hread, size_nodes_arena]
    exact (t.read_sublist_entries d).length_le
  have hes : ∀ e ∈ [t.rootEntry], e ∈ t.entries := by
    simpa using t.rootEntry_mem_entries
  rw [reachable, hroot, getElem?_mark hes hsteps, hread, Array.size_replicate, size_nodes_arena,
    Array.getElem?_replicate]
  constructor
  · rintro (hstart | ⟨-, o, ho, hid⟩)
    · split at hstart <;> cases hstart
    · rwa [← Tree.eq_of_id_eq ((t.read_sublist_entries d).subset ho) h hid]
  · exact fun hmem => .inr ⟨Tree.id_lt_of_mem_entries h, e, hmem, rfl⟩

end Arena

end Reckon
