import Reckon.Proofs.Polish.Language
import Reckon.Proofs.Tree.Numbering
import Reckon.Tree.Arena

/-!
# Laying trees out

While an arena is built, its nodes are those of the finished subtrees one behind another, its
dictionary maps every number to itself, and its stack holds the numbers of the roots
(`Arena.Draft.Holds`).  So building an arena is laying out the tree that the tokens spell
(`Arena.ofPolish_eq`).
-/

namespace Reckon

open Reckon.Tree

/-! ## Rows of trees -/

namespace Tree

variable {t u : Tree} {token : Token} {forest below : List Tree} {ts : List Token}

def forestSize : List Tree → Nat
  | [] => 0
  | t :: below => forestSize below + t.size

/-- The entries of trees that stand one behind another, the first one last in the list. -/
def forestEntries : List Tree → List Entry
  | [] => []
  | t :: below => forestEntries below ++ t.entriesFrom (forestSize below) none

/-- The only tree there is, or what is wrong. -/
def sole : List Tree → Except Fault Tree
  | [] => .error .empty
  | [t] => .ok t
  | residual => .error (.residual residual.reverse)

theorem ofPolish_eq_sole (ts : List Token) : ofPolish ts = sole (ts.foldl shift []) := rfl

/-- The numbers of the roots. -/
def tops : List Tree → List Nat
  | [] => []
  | t :: below => (forestSize below + t.size - 1) :: tops below

theorem length_forestEntries (forest : List Tree) :
    (forestEntries forest).length = forestSize forest := by
  induction forest with
  | nil => rfl
  | cons t below ih => rw [forestEntries, List.length_append, ih, length_entriesFrom, forestSize]

theorem forestSize_shift (forest : List Tree) (token : Token) :
    forestSize (shift forest token) = forestSize forest + 1 := by
  unfold shift
  split
  · split
    · rfl
    · simp only [forestSize, size]
      omega
  · rfl

/-- What a node knows of its children does not depend on the node above it. -/
theorem map_node_entriesFrom (first : Nat) (parent parent' : Option Nat) (t : Tree) :
    (t.entriesFrom first parent).map (·.node) = (t.entriesFrom first parent').map (·.node) := by
  cases t with
  | leaf token => rfl
  | node token l r =>
    simp only [entriesFrom_node, List.map_append]
    rfl

theorem map_node_forestEntries_leaf (token : Token) (forest : List Tree) :
    (forestEntries (leaf token :: forest)).map (·.node) =
      (forestEntries forest).map (·.node) ++ [⟨token, none, none⟩] := by
  rw [forestEntries, List.map_append]
  rfl

/-- Joining two trees adds a node that knows their roots. -/
theorem map_node_forestEntries_node (token : Token) (left right : Tree) (below : List Tree) :
    (forestEntries (node token left right :: below)).map (·.node) =
      (forestEntries (right :: left :: below)).map (·.node) ++
        [⟨token, some (forestSize below + left.size - 1),
          some (forestSize (left :: below) + right.size - 1)⟩] := by
  have hleft : forestSize below + left.size + right.size - 1 - right.size =
      forestSize below + left.size - 1 := by omega
  simp only [forestEntries, entriesFrom_node, List.map_append, List.append_assoc,
    map_node_entriesFrom _ (some _) none, forestSize]
  simp only [List.map_cons, List.map_nil, Entry.node, Entry.left?, Entry.right?, Tree.token, hleft]

/-! ## Spelling -/

theorem flatMap_postorder_shift (forest : List Tree) (token : Token) :
    (shift forest token).reverse.flatMap postorder =
      forest.reverse.flatMap postorder ++ [token] := by
  unfold shift
  split
  · split <;> simp
  · simp

theorem flatMap_postorder_foldl_shift (forest : List Tree) (ts : List Token) :
    (ts.foldl shift forest).reverse.flatMap postorder =
      forest.reverse.flatMap postorder ++ ts := by
  induction ts generalizing forest with
  | nil => simp
  | cons token ts ih => rw [List.foldl_cons, ih, flatMap_postorder_shift, List.append_assoc]; rfl

/-- The tokens of the tree in postorder are the tokens that it is built from. -/
theorem postorder_of_ofPolish (h : ofPolish ts = .ok t) : t.postorder = ts := by
  have hspelt := flatMap_postorder_foldl_shift [] ts
  rw [Polish.foldl_shift_of_ofPolish h] at hspelt
  simpa using hspelt

/-- A tree whose leaves are its operands is built again from its tokens in postorder. -/
theorem Joined.foldl_shift (h : t.Joined) (forest : List Tree) :
    t.postorder.foldl shift forest = t :: forest := by
  induction t generalizing forest with
  | leaf token => exact Polish.shift_operand h forest
  | node token l r ihl ihr =>
    rw [postorder_node, List.foldl_append, List.foldl_append, ihl h.2.1, ihr h.2.2]
    exact Polish.shift_joint h.1 l r forest

theorem Joined.ofPolish_postorder (h : t.Joined) : ofPolish t.postorder = .ok t := by
  rw [ofPolish, h.foldl_shift]

end Tree

namespace Arena

variable {draft : Draft} {forest below above : List Tree} {t : Tree} {token : Token}
  {ts : List Token}

/-! ## Dictionaries -/

/-- The dictionary that maps each of `n` places to the node of the same number. -/
def identity (n : Nat) : List (Nat × Nat) := (List.range n).map fun i => (i, i)

theorem lookup_identity {i n : Nat} (h : i < n) : (identity n).lookup i = some i := by
  induction n with
  | zero => cases h
  | succ n ih =>
    rw [identity, List.range_succ, List.map_append, List.lookup_append, ← identity]
    rcases Nat.lt_succ_iff_lt_or_eq.mp h with h | rfl
    · rw [ih h, Option.some_or]
    · have hnone : (identity i).lookup i = none := by
        rw [List.lookup_eq_none_iff]
        simp only [identity, List.mem_map, List.mem_range, forall_exists_index, and_imp]
        rintro p j hj rfl
        simp
        omega
      rw [hnone, Option.none_or, List.map_singleton, List.lookup_cons_self]

theorem enter_of_forall_ne {place id : Nat} {dictionary : List (Nat × Nat)}
    (h : ∀ p ∈ dictionary, p.1 ≠ place) :
    enter place id dictionary = dictionary ++ [(place, id)] := by
  induction dictionary with
  | nil => rfl
  | cons p rest ih =>
    obtain ⟨hp, hrest⟩ := List.forall_mem_cons.mp h
    rw [enter, if_neg (by simpa using Ne.symm hp), ih hrest, List.cons_append]

theorem enter_identity (n : Nat) : enter n n (identity n) = identity (n + 1) := by
  rw [enter_of_forall_ne, identity, identity, List.range_succ, List.map_append]
  · rfl
  · simp only [identity, List.mem_map, List.mem_range, forall_exists_index, and_imp]
    rintro p i hi rfl
    exact Nat.ne_of_lt hi

/-! ## Building -/

/-- The draft lays out the trees whose subtrees are finished. -/
structure Draft.Holds (draft : Draft) (forest : List Tree) : Prop where
  nodes : draft.nodes.toList = (forestEntries forest).map (·.node)
  dictionary : draft.dictionary = identity (forestSize forest)
  stack : draft.stack = tops forest

theorem Draft.Holds.size_eq (h : draft.Holds forest) : draft.nodes.size = forestSize forest := by
  rw [← Array.length_toList, h.nodes, List.length_map, length_forestEntries]

theorem Draft.Holds.take (h : draft.Holds forest) (token : Token) :
    (draft.take (token, forestSize forest)).Holds (shift forest token) := by
  have hdictionary : enter (forestSize forest) draft.nodes.size draft.dictionary =
      identity (forestSize (shift forest token)) := by
    rw [h.size_eq, h.dictionary, enter_identity, forestSize_shift]
  have hstack := h.stack
  have hleaf : ∀ stack, stack = tops forest → Draft.Holds
      ⟨draft.nodes.push ⟨token, none, none⟩,
        enter (forestSize forest) draft.nodes.size draft.dictionary, forestSize forest :: stack⟩
      (leaf token :: forest) := by
    intro stack hs
    refine ⟨?_, ?_, congrArg _ hs⟩
    · rw [Array.toList_push, h.nodes, map_node_forestEntries_leaf]
    · rw [h.size_eq, h.dictionary, enter_identity]
      rfl
  match forest, hstack with
  | [], hstack =>
    simp only [tops] at hstack
    simp only [Draft.take, hstack, shift]
    exact hleaf [] rfl
  | [u], hstack =>
    simp only [tops] at hstack
    simp only [Draft.take, hstack, shift]
    exact hleaf _ rfl
  | right :: left :: below, hstack =>
    simp only [tops] at hstack
    simp only [Draft.take, hstack, shift] at hdictionary ⊢
    by_cases hk : token.kind.isOperand
    · rw [if_pos hk, if_pos hk]
      exact hleaf _ rfl
    · rw [if_neg hk] at hdictionary ⊢
      rw [if_neg hk]
      have hlookup : ∀ i, i < forestSize (right :: left :: below) →
          draft.dictionary.lookup i = some i := fun i hi => h.dictionary ▸ lookup_identity hi
      have hleft := left.size_pos
      have hright := right.size_pos
      refine ⟨?_, hdictionary, ?_⟩
      · rw [Array.toList_push, h.nodes, map_node_forestEntries_node,
          hlookup _ (by simp only [forestSize]; omega), hlookup _ (by simp only [forestSize]; omega)]
      · simp only [tops, forestSize, size, List.cons.injEq, and_true]
        omega

theorem Draft.Holds.foldl (h : draft.Holds forest) (ts : List Token) :
    ((ts.zipIdx (forestSize forest)).foldl Draft.take draft).Holds (ts.foldl shift forest) := by
  induction ts generalizing draft forest with
  | nil => exact h
  | cons token ts ih =>
    rw [List.zipIdx_cons, List.foldl_cons, List.foldl_cons, ← forestSize_shift forest token]
    exact ih (h.take token)

/-! ## Reading trees back -/

/-- The tree whose row of entries ends a list stands at the end. -/
theorem getElem?_last (front rest : List Tree) (first : Nat) (parent : Option Nat) (t : Tree) :
    (front ++ ((t.entriesFrom first parent).map (·.tree) ++ rest))[front.length + t.size - 1]? =
      some t := by
  have hpos := t.size_pos
  have hlast : ((t.entriesFrom first parent).map (·.tree))[t.size - 1]? = some t := by
    have h := getLast?_entriesFrom first parent t
    rw [List.getLast?_eq_getElem?, length_entriesFrom] at h
    rw [List.getElem?_map, h, Option.map_some]
  have hindex : front.length + t.size - 1 - front.length = t.size - 1 := by omega
  rw [List.getElem?_append_right (by omega), hindex, List.getElem?_append_left, hlast]
  rw [List.length_map, length_entriesFrom]
  omega

theorem toList_foldl_foldInto (t : Tree) (parent : Option Nat) (done : Array Tree) :
    (((t.entriesFrom done.size parent).map (·.node)).foldl (foldInto Node.join) done).toList =
      done.toList ++ (t.entriesFrom done.size parent).map (·.tree) := by
  induction t generalizing parent done with
  | leaf token =>
    rw [entriesFrom_leaf]
    exact Array.toList_push
  | node token l r ihl ihr =>
    have hl := ihl (some (done.size + l.size + r.size)) done
    generalize hdone : ((l.entriesFrom done.size (some (done.size + l.size + r.size))).map
      (·.node)).foldl (foldInto Node.join) done = doneL at hl
    have hsize : doneL.size = done.size + l.size := by
      rw [← Array.length_toList, hl, List.length_append, List.length_map, length_entriesFrom,
        Array.length_toList]
    have hr := ihr (some (done.size + l.size + r.size)) doneL
    rw [hsize, hl, List.append_assoc] at hr
    rw [entriesFrom_node, List.map_append, List.foldl_append, hdone, List.map_append,
      List.foldl_append]
    generalize ((r.entriesFrom (done.size + l.size) (some (done.size + l.size + r.size))).map
      (·.node)).foldl (foldInto Node.join) doneL = doneR at hr ⊢
    have hleft : doneR[done.size + l.size + r.size - 1 - r.size]? = some l := by
      have hindex : done.size + l.size + r.size - 1 - r.size =
          done.toList.length + l.size - 1 := by
        rw [Array.length_toList]
        omega
      rw [← Array.getElem?_toList, hr, hindex, getElem?_last]
    have hright : doneR[done.size + l.size + r.size - 1]? = some r := by
      have hrow := getElem?_last (done.toList ++ (l.entriesFrom done.size
        (some (done.size + l.size + r.size))).map (·.tree)) [] (done.size + l.size)
        (some (done.size + l.size + r.size)) r
      rwa [List.append_nil, List.append_assoc, ← hr, List.length_append, List.length_map,
        length_entriesFrom, Array.length_toList, Array.getElem?_toList] at hrow
    rw [List.map_cons, List.map_nil, List.foldl_cons, List.foldl_nil, foldInto, Array.toList_push,
      hr]
    simp only [Entry.node, Entry.left?, Entry.right?, Option.bind_some, hleft, hright, Node.join,
      Tree.token, List.map_append, List.map_cons, List.map_nil, List.append_assoc]

theorem toList_foldl_forest (forest : List Tree) :
    (((forestEntries forest).map (·.node)).foldl (foldInto Node.join) #[]).toList =
      (forestEntries forest).map (·.tree) := by
  induction forest with
  | nil => rfl
  | cons t below ih =>
    have hsize : (((forestEntries below).map (·.node)).foldl (foldInto Node.join) #[]).size =
        forestSize below := by
      rw [← Array.length_toList, ih, List.length_map, length_forestEntries]
    rw [forestEntries, List.map_append, List.foldl_append, ← hsize, toList_foldl_foldInto, ih,
      hsize, List.map_append]

theorem prefix_forestEntries_append (above : List Tree) (t : Tree) (below : List Tree) :
    forestEntries (t :: below) <+: forestEntries (above ++ t :: below) := by
  induction above with
  | nil => exact List.prefix_refl _
  | cons u above ih => exact ih.trans (List.prefix_append _ _)

/-- Each tree of a row is read back from its root. -/
theorem foldAt_top (above : List Tree) (t : Tree) (below : List Tree) :
    foldAt Node.join ((forestEntries (above ++ t :: below)).map (·.node))
      (forestSize below + t.size - 1) = some t := by
  have hpos := t.size_pos
  have hlength : forestSize below + t.size - 1 + 1 =
      ((forestEntries (t :: below)).map Entry.node).length := by
    rw [List.length_map, length_forestEntries, forestSize]
    omega
  have htake := List.prefix_iff_eq_take.mp ((prefix_forestEntries_append above t below).map Entry.node)
  have hrow := getElem?_last ((forestEntries below).map (·.tree)) [] (forestSize below) none t
  rw [List.append_nil, List.length_map, length_forestEntries] at hrow
  rw [foldAt, hlength, ← htake, ← Array.getElem?_toList, toList_foldl_forest, forestEntries,
    List.map_append, hrow]

theorem Draft.Holds.filterMap_treeAt? (above : List Tree) (h : draft.Holds (above ++ below)) :
    (tops below).filterMap draft.treeAt? = below := by
  induction below generalizing above with
  | nil => rfl
  | cons t below ih =>
    have hlookup : draft.dictionary.lookup (forestSize below + t.size - 1) =
        some (forestSize below + t.size - 1) := by
      have hpos := t.size_pos
      have hle := (prefix_forestEntries_append above t below).length_le
      rw [length_forestEntries, length_forestEntries, forestSize] at hle
      exact h.dictionary ▸ lookup_identity (by omega)
    have htree : draft.treeAt? (forestSize below + t.size - 1) = some t := by
      rw [Draft.treeAt?, hlookup, Option.bind_some, h.nodes, foldAt_top]
    rw [List.append_cons] at h
    rw [tops, List.filterMap_cons_some htree, ih _ h]

/-! ## Nodes above -/

section Parents

variable {parents : Array (Option Nat)} {numbered : List (Node × Nat)} {child id : Nat}

theorem getElem?_foldl_set (id : Nat) (children : List Nat) (parents : Array (Option Nat))
    (child : Nat) :
    (children.foldl (fun ps c => ps.setIfInBounds c (some id)) parents)[child]? =
      if child ∈ children ∧ child < parents.size then some (some id) else parents[child]? := by
  induction children generalizing parents with
  | nil => simp
  | cons c children ih =>
    rw [List.foldl_cons, ih, Array.size_setIfInBounds, Array.getElem?_setIfInBounds]
    by_cases hmem : child ∈ children <;> by_cases hlt : child < parents.size <;>
      by_cases hc : c = child <;> simp_all [Eq.comm]

theorem getElem?_adopt (x : Node × Nat) : (adopt parents x)[child]? =
    if child ∈ x.1.children ∧ child < parents.size then some (some x.2) else parents[child]? :=
  getElem?_foldl_set x.2 x.1.children parents child

theorem size_adopt (parents : Array (Option Nat)) (x : Node × Nat) :
    (adopt parents x).size = parents.size := by
  unfold adopt
  induction x.1.children generalizing parents with
  | nil => rfl
  | cons c children ih => rw [List.foldl_cons, ih, Array.size_setIfInBounds]

theorem size_foldl_adopt (parents : Array (Option Nat)) (numbered : List (Node × Nat)) :
    (numbered.foldl adopt parents).size = parents.size := by
  induction numbered generalizing parents with
  | nil => rfl
  | cons x numbered ih => rw [List.foldl_cons, ih, size_adopt]

theorem getElem?_foldl_adopt_of_forall_notMem (h : ∀ x ∈ numbered, child ∉ x.1.children) :
    (numbered.foldl adopt parents)[child]? = parents[child]? := by
  induction numbered generalizing parents with
  | nil => rfl
  | cons x numbered ih =>
    obtain ⟨hx, h⟩ := List.forall_mem_cons.mp h
    rw [List.foldl_cons, ih h, getElem?_adopt, if_neg fun hc => hx hc.1]

/-- The only node with a child is written down for it. -/
theorem getElem?_foldl_adopt_of_mem (hchild : ∃ x ∈ numbered, child ∈ x.1.children)
    (honly : ∀ x ∈ numbered, child ∈ x.1.children → x.2 = id) (hlt : child < parents.size) :
    (numbered.foldl adopt parents)[child]? = some (some id) := by
  induction numbered generalizing parents with
  | nil => simp at hchild
  | cons x numbered ih =>
    rw [List.foldl_cons]
    obtain ⟨hx, honly⟩ := List.forall_mem_cons.mp honly
    by_cases hlater : ∃ x ∈ numbered, child ∈ x.1.children
    · exact ih hlater honly (by rwa [size_adopt])
    · have hself : child ∈ x.1.children := by
        obtain ⟨y, hy, hmem⟩ := hchild
        rcases List.mem_cons.mp hy with rfl | hy
        · exact hmem
        · exact absurd ⟨y, hy, hmem⟩ hlater
      rw [getElem?_foldl_adopt_of_forall_notMem fun y hy hmem => hlater ⟨y, hy, hmem⟩,
        getElem?_adopt, if_pos ⟨hself, hlt⟩, hx hself]

end Parents

theorem mem_children_node {e : Entry} {id : Nat} :
    id ∈ e.node.children ↔ e.left? = some id ∨ e.right? = some id := by
  simp [Entry.node, Node.children]

theorem zipIdx_entries (t : Tree) :
    (t.entries.map (·.node)).zipIdx = t.entries.map fun e => (e.node, e.id) := by
  refine List.ext_getElem? fun i => ?_
  rw [List.getElem?_zipIdx, List.getElem?_map, List.getElem?_map]
  cases he : t.entries[i]? with
  | none => rfl
  | some e => simp [(getElem?_entries.mp he).2]

theorem parentsOf_entries (t : Tree) :
    parentsOf (t.entries.map (·.node)).toArray = (t.entries.map (·.parent)).toArray := by
  refine Array.ext_getElem? fun i => ?_
  have hparents : (t.entries.map (·.parent)).toArray[i]? = (t.entries[i]?).map (·.parent) :=
    List.getElem?_toArray.trans List.getElem?_map
  rw [parentsOf, List.toList_toArray, zipIdx_entries, hparents]
  cases he : t.entries[i]? with
  | none =>
    rw [List.getElem?_eq_none_iff] at he
    rw [Option.map_none, Array.getElem?_eq_none_iff, size_foldl_adopt, Array.size_replicate]
    simpa using he
  | some e =>
    obtain ⟨hmem, rfl⟩ := getElem?_entries.mp he
    have hlt := id_lt_of_mem_entries hmem
    have honly : ∀ x ∈ t.entries.map fun e => (e.node, e.id), e.id ∈ x.1.children →
        e.parent = some x.2 := by
      intro x hx hchild
      obtain ⟨above, habove, rfl⟩ := List.mem_map.mp hx
      exact parent_eq_of_child hmem habove (mem_children_node.mp hchild)
    rw [Option.map_some]
    rcases parent_mem_entriesFrom hmem with rfl | ⟨above, habove, hparent, hchild⟩
    · rw [getElem?_foldl_adopt_of_forall_notMem, Array.getElem?_replicate,
        if_pos (by simpa using hlt)]
      exact fun x hx hchild => nomatch honly x hx hchild
    · rw [hparent]
      refine getElem?_foldl_adopt_of_mem ⟨_, List.mem_map_of_mem habove, ?_⟩ ?_ ?_
      · exact mem_children_node.mpr hchild
      · intro x hx hc
        exact Option.some.inj ((honly x hx hc).symm.trans hparent)
      · simpa using hlt

/-! ## Finishing -/

theorem Draft.Holds.finish (h : draft.Holds forest) :
    draft.finish = (sole forest).map Tree.arena := by
  have hstack := h.stack
  match forest, hstack with
  | [], hstack =>
    simp only [tops] at hstack
    rw [Draft.finish, hstack]
    rfl
  | [t], hstack =>
    have hpos := t.size_pos
    have hnodes : draft.nodes = (t.entries.map (·.node)).toArray := by
      have hlaid := congrArg List.toArray h.nodes
      rwa [Array.toArray_toList] at hlaid
    have hdictionary : draft.dictionary = t.entries.map fun e => (e.id, e.id) := by
      have hids := map_id_entriesFrom 0 none t
      rw [← List.range_eq_range'] at hids
      rw [h.dictionary, identity, forestSize, forestSize, Nat.zero_add, ← hids, List.map_map]
      rfl
    have hlookup : draft.dictionary.lookup (t.size - 1) = some (t.size - 1) := by
      rw [h.dictionary]
      exact lookup_identity (by simp only [forestSize]; omega)
    simp only [tops, forestSize, Nat.zero_add] at hstack
    rw [Draft.finish, hstack]
    simp only [hlookup]
    rw [hdictionary, hnodes, parentsOf_entries]
    rfl
  | right :: left :: below, hstack =>
    have htrees := Draft.Holds.filterMap_treeAt? [] h
    simp only [tops] at hstack htrees
    rw [Draft.finish, hstack]
    simp only [List.filterMap_reverse, htrees]
    rfl

/-- Building an arena is laying out the tree that the tokens spell. -/
theorem ofPolish_eq (ts : List Token) : ofPolish ts = (Tree.ofPolish ts).map Tree.arena := by
  have hstart : Draft.Holds ⟨#[], [], []⟩ [] := ⟨rfl, rfl, rfl⟩
  exact (hstart.foldl ts).finish

theorem exists_tree_of_ofPolish {ts : List Token} {a : Arena} (h : ofPolish ts = .ok a) :
    ∃ t, Tree.ofPolish ts = .ok t ∧ a = t.arena := by
  rw [ofPolish_eq] at h
  cases ht : Tree.ofPolish ts with
  | error fault =>
    rw [ht] at h
    cases h
  | ok t =>
    rw [ht] at h
    exact ⟨t, rfl, (Except.ok.inj h).symm⟩

end Arena

end Reckon
