import Mathlib.Data.List.Forall2
import Reckon.Proofs.Span
import Reckon.Proofs.Tree
import Reckon.Proofs.Tree.Postorder
import Reckon.Tree.Walks

/-!
# Walks and trees

What the walks over an arena compute is what the recursive definitions say of the trees that its
nodes bear (`Arena.Bears`).  A pass needs only that children stand before the nodes above them
(`Arena.Descending`): then it finds every value that it reads, and it satisfies the equation of a
recursion (`Descending.foldAt?_eq`).  The list of pending pieces goes through the same steps as that
of `Tree.write` (`StandFor.write?_eq`).
-/

namespace Reckon

namespace Arena

variable {a : Arena} {t u : Tree} {id : Nat} {n : Node}

/-- Node `id` with all that is below it is a tree. -/
inductive Bears (a : Arena) : Nat → Tree → Prop
  | leaf {id : Nat} {token : Token} (h : a.nodes[id]? = some ⟨token, none, none⟩) :
      Bears a id (.leaf token)
  | node {id left right : Nat} {token : Token} {l r : Tree}
      (h : a.nodes[id]? = some ⟨token, some left, some right⟩) (hleft : Bears a left l)
      (hright : Bears a right r) : Bears a id (.node token l r)

/-! ## Nodes and their trees -/

/-- A node bears one tree. -/
theorem Bears.unique (h : a.Bears id t) (h' : a.Bears id u) : t = u := by
  induction h generalizing u with
  | leaf h =>
    cases h' with
    | leaf h' => simp_all
    | node h' => simp_all
  | node h _ _ ihl ihr =>
    cases h' with
    | leaf h' => simp_all
    | node h' hleft hright =>
      obtain ⟨rfl, rfl, rfl⟩ : _ ∧ _ ∧ _ := by simpa [h] using h'
      rw [ihl hleft, ihr hright]

theorem bears_arena {e : Tree.Entry} (he : e ∈ t.entries) (hu : e.tree = u) :
    t.arena.Bears e.id u := by
  induction u generalizing e with
  | leaf token => exact .leaf (getElem?_nodes_of_leaf he hu)
  | node token l r ihl ihr =>
    obtain ⟨hleft, hright⟩ := Tree.mem_entries_node_children he hu
    exact .node (getElem?_nodes_of_node he hu) (ihl hleft rfl) (ihr hright rfl)

theorem descending_arena (t : Tree) : t.arena.Descending := by
  intro id n hn child hchild
  rcases children_arena hn with ⟨hleft, hright⟩ | ⟨left, right, hleft, hright, hlt, hlt'⟩
  · simp [Node.children, hleft, hright] at hchild
  · simp only [Node.children, hleft, hright, Option.toList_some, List.mem_append,
      List.mem_singleton] at hchild
    omega

/-! ## Passes -/

section Passes

variable {α : Type} (combine : Node → Option α → Option α → α)

/-- A pass goes on to the next node, whose children are done. -/
theorem Descending.foldFirst?_succ (h : a.Descending) (hn : a.nodes[id]? = some n)
    {done : Array α} (hdone : a.foldFirst? combine id = some done) (hsize : done.size = id) :
    a.foldFirst? combine (id + 1) = some (foldInto combine done n) := by
  have hchildren : n.children.all (· < done.size) := by
    refine List.all_eq_true.mpr fun child hchild => decide_eq_true ?_
    rw [hsize]
    exact h id n hn child hchild
  rw [foldFirst?] at hdone
  rw [foldFirst?, List.take_add_one, Array.getElem?_toList, hn, Option.toList_some,
    List.foldlM_append, hdone]
  show ((foldInto? combine done n).bind fun done => some done) = _
  rw [foldInto?, if_pos hchildren, Option.bind_some]

/-- A pass over the first nodes finds every value that it reads, and keeps them all. -/
theorem Descending.foldFirst?_eq (h : a.Descending) {count : Nat} (hcount : count ≤ a.nodes.size) :
    ∃ done, a.foldFirst? combine count = some done ∧ done.size = count ∧
      ∀ i < count, done[i]? = a.foldAt? combine i := by
  induction count with
  | zero => exact ⟨#[], rfl, rfl, nofun⟩
  | succ count ih =>
    obtain ⟨done, hdone, hsize, hvalues⟩ := ih (by omega)
    have hnext := h.foldFirst?_succ combine (Array.getElem?_eq_getElem hcount) hdone hsize
    refine ⟨_, hnext, by simp [foldInto, hsize], fun i hi => ?_⟩
    rcases Nat.lt_succ_iff_lt_or_eq.mp hi with hlt | rfl
    · rw [foldInto, Array.getElem?_push_lt (by omega), ← hvalues i hlt,
        Array.getElem?_eq_getElem (by omega)]
    · rw [foldAt?, hnext]
      rfl

/-- The value of a node comes from the values of its children. -/
theorem Descending.foldAt?_eq (h : a.Descending) (hn : a.nodes[id]? = some n) :
    a.foldAt? combine id =
      some (combine n (n.left.bind (a.foldAt? combine)) (n.right.bind (a.foldAt? combine))) := by
  have hid : id < a.nodes.size := (Array.getElem?_eq_some_iff.mp hn).1
  obtain ⟨done, hdone, hsize, hvalues⟩ := h.foldFirst?_eq combine (Nat.le_of_lt hid)
  have hread : ∀ side : Option Nat, (∀ child ∈ side.toList, child ∈ n.children) →
      side.bind (fun child => done[child]?) = side.bind (a.foldAt? combine) := by
    intro side hside
    cases side with
    | none => rfl
    | some child => exact hvalues child (h id n hn child (hside child (List.mem_singleton_self _)))
  have hleft := hread n.left fun child => List.mem_append_left _
  have hright := hread n.right fun child => List.mem_append_right _
  rw [foldAt?, h.foldFirst?_succ combine hn hdone hsize, foldInto, hleft, hright, ← hsize]
  exact Array.getElem?_push_size

/-- So a pass computes by recursion over the tree that a node bears. -/
theorem Bears.foldAt?_eq (hbears : a.Bears id t) (h : a.Descending) (value : Tree → α)
    (hleaf : ∀ token, combine ⟨token, none, none⟩ none none = value (.leaf token))
    (hnode : ∀ token left right l r, combine ⟨token, some left, some right⟩ (some (value l))
      (some (value r)) = value (.node token l r)) :
    a.foldAt? combine id = some (value t) := by
  induction hbears with
  | leaf hn => rw [h.foldAt?_eq combine hn, ← hleaf]; rfl
  | node hn _ _ ihl ihr =>
    rw [h.foldAt?_eq combine hn, Option.bind_some, Option.bind_some, ihl, ihr, hnode]

end Passes

theorem Bears.heightAt?_eq (hbears : a.Bears id t) (h : a.Descending) :
    a.heightAt? id = some t.height :=
  hbears.foldAt?_eq _ h Tree.height (fun _ => rfl) fun _ _ _ _ _ => Nat.add_comm _ _

theorem Bears.leafCount?_eq (hbears : a.Bears a.root t) (h : a.Descending) :
    a.leafCount? = some t.leafCount :=
  hbears.foldAt?_eq _ h Tree.leafCount (fun _ => rfl) fun _ _ _ _ _ => rfl

theorem Bears.spanAt?_eq (hbears : a.Bears id t) (h : a.Descending) :
    a.spanAt? id = some t.span := by
  refine hbears.foldAt?_eq _ h Tree.span (fun token => ?_) fun token left right l r => ?_
  · cases hs : token.span <;> simp [Span.hull, Tree.span, hs]
  · cases hl : l.span <;> cases hr : r.span <;> cases hs : token.span <;>
      simp [Span.hull, Tree.span, Tree.joinSpans, hl, hr, hs]

/-! ## Writing -/

/-- Pending pieces of an arena and of a tree stand for the same text. -/
inductive Piece.StandsFor (a : Arena) : Piece → Tree.Piece → Prop
  | node {id : Nat} {t : Tree} (h : a.Bears id t) : StandsFor a (.node id) (.tree t)
  | text (s : String) : StandsFor a (.text s) (.text s)

/-- The rows stand for the same text, piece by piece. -/
abbrev StandFor (a : Arena) : List Piece → List Tree.Piece → Prop :=
  List.Forall₂ (Piece.StandsFor a)

theorem StandFor.append {ps ps' : List Piece} {qs qs' : List Tree.Piece} (h : a.StandFor ps qs)
    (h' : a.StandFor ps' qs') : a.StandFor (ps ++ ps') (qs ++ qs') :=
  List.rel_append h h'

theorem StandFor.text (s : String) : a.StandFor [.text s] [.text s] := .cons (.text s) .nil

/-- A node is written as the tree that it bears. -/
theorem Bears.pieces?_eq (h : a.Bears id t) : ∃ n ps, a.nodes[id]? = some n ∧
    a.pieces? n = some ps ∧ a.StandFor ps t.pieces := by
  obtain ⟨n, hn, htoken, hleft, hright, hbefore⟩ : ∃ n, a.nodes[id]? = some n ∧
      n.token = t.token ∧ a.StandFor (pieceOf n.left) (Tree.pieceOf t.left?) ∧
      a.StandFor (pieceOf n.right) (Tree.pieceOf t.right?) ∧
      a.standsBefore? n = some t.standsBefore := by
    cases h with
    | leaf h => exact ⟨_, h, rfl, .nil, .nil, rfl⟩
    | @node id left right token l r h hleft hright =>
      refine ⟨_, h, rfl, .cons (.node hleft) .nil, .cons (.node hright) .nil, ?_⟩
      show a.nodes[left]?.map (·.token.isMissing) = some l.token.isMissing
      cases hleft with
      | leaf h => rw [h]; rfl
      | node h => rw [h]; rfl
  have hopen : a.StandFor [.text "("] [.text "("] := .text "("
  have hclose : a.StandFor [.text ")"] [.text ")"] := .text ")"
  have hown : a.StandFor [.text t.token.text] [.text t.token.text] := .text _
  refine ⟨n, ?_⟩
  unfold pieces? Tree.pieces Tree.kind
  rw [htoken, hbefore]
  cases t.token.kind with
  | missing => exact ⟨_, hn, rfl, .nil⟩
  | literal | identifier | opening | closing => exact ⟨_, hn, rfl, hown⟩
  | operator =>
    exact ⟨_, hn, rfl, ((hopen.append hleft).append (hown.append hright)).append hclose⟩
  | separator => exact ⟨_, hn, rfl, hleft.append (hown.append hright)⟩
  | call => exact ⟨_, hn, rfl, (hown.append (hopen.append hright)).append hclose⟩
  | unary =>
    refine ⟨_, hn, rfl, ?_⟩
    cases t.standsBefore with
    | true => exact (hopen.append (hown.append hright)).append hclose
    | false => exact (hopen.append hleft).append (hown.append hclose)

theorem write?_node (h : a.Descending) {ps : List Piece} (hn : a.nodes[id]? = some n)
    (hps : a.pieces? n = some ps) (out : String) (rest : List Piece) :
    a.write? h out (.node id :: rest) = a.write? h out (ps ++ rest) := by
  rw [write?]
  split
  · simp_all
  · next n' hn' =>
    obtain rfl : n' = n := by simpa [hn] using hn'.symm
    split
    · simp_all
    · next ps' hps' =>
      obtain rfl : ps' = ps := by simpa [hps] using hps'.symm
      rfl

/-- The pending pieces are used up as those of the tree are. -/
theorem StandFor.write?_eq {ps : List Piece} {qs : List Tree.Piece} (hstand : a.StandFor ps qs)
    (h : a.Descending) (out : String) : a.write? h out ps = some (Tree.write out qs) := by
  fun_induction Tree.write out qs generalizing ps with
  | case1 out =>
    cases hstand
    rw [write?]
  | case2 out s qs ih =>
    obtain ⟨p, ps, hp, hps, rfl⟩ := List.forall₂_cons_right_iff.mp hstand
    cases hp
    rw [write?, ih hps]
  | case3 out t qs ih =>
    obtain ⟨p, ps, hp, hps, rfl⟩ := List.forall₂_cons_right_iff.mp hstand
    cases hp with
    | node hbears =>
      obtain ⟨n, pieces, hn, hpieces, hwritten⟩ := hbears.pieces?_eq
      rw [write?_node h hn hpieces, ih (StandFor.append hwritten hps)]

theorem Bears.renderAt?_eq (hbears : a.Bears id t) (h : a.Descending) :
    a.renderAt? h id = some t.text := by
  have hstand : a.StandFor [.node id] [.tree t] := .cons (.node hbears) .nil
  rw [renderAt?, hstand.write?_eq, ← Tree.render_eq_text, Tree.render]

end Arena

/-! ## Tables -/

namespace Tree

section Tables

variable {α : Type} {ofLeaf : Token → α} {ofNode : Token → α → α → α} (value : Tree → α)

/-- A sweep over a tree puts the values of all its subtrees behind those that are there. -/
theorem sweep_stepsOnto (hleaf : ∀ token, ofLeaf token = value (leaf token))
    (hnode : ∀ token l r, ofNode token (value l) (value r) = value (node token l r))
    (first : Nat) (parent : Option Nat) (t : Tree) (stack : List α) (done : Array α)
    (tail : List Step) : sweep ofLeaf ofNode stack done (t.stepsOnto tail) =
      sweep ofLeaf ofNode (value t :: stack)
        (done ++ ((t.entriesFrom first parent).map fun e => value e.tree).toArray) tail := by
  induction t generalizing first parent stack done tail with
  | leaf token =>
    simp [stepsOnto, sweep, hleaf, entriesFrom_leaf]
  | node token l r ihl ihr =>
    rw [stepsOnto, ihl first (some (first + l.size + r.size)),
      ihr (first + l.size) (some (first + l.size + r.size)), sweep, if_neg (by simp),
      entriesFrom_node]
    simp [hnode]

theorem table_eq (hleaf : ∀ token, ofLeaf token = value (leaf token))
    (hnode : ∀ token l r, ofNode token (value l) (value r) = value (node token l r)) (t : Tree) :
    t.table ofLeaf ofNode = (t.entries.map fun e => value e.tree).toArray := by
  rw [table, sweep_stepsOnto value hleaf hnode 0 none, sweep, Array.empty_append]
  rfl

end Tables

theorem heights_eq (t : Tree) : t.heights = (t.entries.map (·.tree.height)).toArray :=
  table_eq height (fun _ => rfl) (fun _ _ _ => rfl) t

theorem spans_eq (t : Tree) : t.spans = (t.entries.map (·.tree.span)).toArray :=
  table_eq span (fun _ => rfl) (fun _ _ _ => rfl) t

theorem countP_isLeaf_entriesFrom (first : Nat) (parent : Option Nat) (t : Tree) :
    (t.entriesFrom first parent).countP (·.node.isLeaf) = t.leafCount := by
  induction t generalizing first parent with
  | leaf token => rfl
  | node token l r ihl ihr =>
    rw [entriesFrom_node, List.countP_append, List.countP_append, ihl, ihr, leafCount]
    rfl

theorem span_eq_none_iff (t : Tree) :
    t.span = none ↔ ∀ token ∈ t.postorder, token.position = none := by
  rw [span_eq_hull, Span.hull_eq_none_iff, List.filterMap_eq_nil_iff]
  simp only [Token.span, Option.map_eq_none_iff]

end Tree

namespace Arena

variable {a : Arena} {t u : Tree} {id : Nat} {ts : List Token}

/-! ## All walks -/

/-- What the walks compute of node `id` is what recursion over a tree computes. -/
structure WalksAs (a : Arena) (h : a.Descending) (id : Nat) (u : Tree) : Prop where
  height : a.heightAt? id = some u.height
  span : a.spanAt? id = some u.span
  /-- The span is the union of the spans of the tokens that have a position. -/
  span_eq_hull : u.span = Span.hull (u.postorder.filterMap Token.span)
  span_eq_none_iff : u.span = none ↔ ∀ token ∈ u.postorder, token.position = none
  text : a.renderAt? h id = some u.text

theorem Bears.walksAs (hbears : a.Bears id u) (h : a.Descending) : a.WalksAs h id u where
  height := hbears.heightAt?_eq h
  span := hbears.spanAt?_eq h
  span_eq_hull := u.span_eq_hull
  span_eq_none_iff := u.span_eq_none_iff
  text := hbears.renderAt?_eq h

/-- **The walks over an arena equal their recursive definitions.**  In an arena that is built,
children stand before the node above them, so that writing ends.  A pass finds every value that it
reads, whatever it computes, and its values satisfy the equation of a recursion.  Every node bears
one tree, whose height, span and text are what the walks compute.  The leaves that are counted are
all the leaves there are, and tables over the tree hold the same values. -/
theorem walks_eq (h : ofPolish ts = .ok a) :
    (∀ {α : Type} (combine : Node → Option α → Option α → α) (id : Nat) (n : Node),
      a.nodes[id]? = some n → (∀ child ∈ n.children, (a.foldAt? combine child).isSome) ∧
        a.foldAt? combine id =
          some (combine n (n.left.bind (a.foldAt? combine)) (n.right.bind (a.foldAt? combine)))) ∧
    (∀ id < a.nodes.size, ∃! u, a.Bears id u) ∧
    (∃ hdescending : a.Descending, ∀ id u, a.Bears id u → a.WalksAs hdescending id u) ∧
    ∃ t, Tree.ofPolish ts = .ok t ∧ a.Bears a.root t ∧
      a.leafCount? = some t.leafCount ∧ t.leafCount = a.nodes.toList.countP Node.isLeaf ∧
      ∀ id < a.nodes.size, t.heights[id]? = a.heightAt? id ∧ t.spans[id]? = a.spanAt? id := by
  obtain ⟨t, ht, rfl⟩ := exists_tree_of_ofPolish h
  have hdescending := descending_arena t
  have hroot : t.arena.Bears t.arena.root t := bears_arena t.rootEntry_mem_entries rfl
  refine ⟨fun combine id n hn => ⟨fun child hchild => ?_, hdescending.foldAt?_eq combine hn⟩,
    fun id hid => ?_, ⟨hdescending, fun id u hu => hu.walksAs hdescending⟩, t, ht, hroot,
    hroot.leafCount?_eq hdescending, ?_, fun id hid => ?_⟩
  · have hlt : child < t.arena.nodes.size :=
      Nat.lt_trans (hdescending id n hn child hchild) (Array.getElem?_eq_some_iff.mp hn).1
    rw [hdescending.foldAt?_eq combine (Array.getElem?_eq_getElem hlt), Option.isSome_some]
  · obtain ⟨e, he, rfl, -⟩ := getElem?_nodes_arena.mp (Array.getElem?_eq_getElem hid)
    exact ⟨e.tree, bears_arena he rfl, fun u hu => hu.unique (bears_arena he rfl)⟩
  · rw [← Tree.countP_isLeaf_entriesFrom 0 none t, Tree.arena, List.countP_map]
    rfl
  · obtain ⟨e, he, rfl, -⟩ := getElem?_nodes_arena.mp (Array.getElem?_eq_getElem hid)
    have hentry : t.entries[e.id]? = some e := Tree.getElem?_entries.mpr ⟨he, rfl⟩
    have hbears := bears_arena he rfl
    rw [hbears.heightAt?_eq hdescending, hbears.spanAt?_eq hdescending, Tree.heights_eq,
      Tree.spans_eq]
    simp [hentry]

/-- `f(-x,n!)` in reverse Polish order. -/
def unaryCall : List Token :=
  [.placeholder, .placeholder, ⟨.identifier, "x", some 3⟩, ⟨.unary, "-", some 2⟩,
    ⟨.identifier, "n", some 5⟩, .placeholder, ⟨.unary, "!", some 6⟩, ⟨.separator, ",", some 4⟩,
    ⟨.call, "f", some 0⟩]

theorem walks_eq_of_unaryCall : ∃ a, ofPolish unaryCall = .ok a ∧ a.leafCount? = some 5 ∧
    a.heightAt? a.root = some 4 ∧
    (∃ h : a.Descending, a.renderAt? h a.root = some "f((-x),(n!))") ∧
    a.spanAt? 3 = some (some (.between 2 4)) ∧ a.spanAt? 0 = some none := by
  have hbuilt : ofPolish unaryCall = .ok _ := rfl
  obtain ⟨-, -, ⟨hdescending, hwalks⟩, t, ht, hroot, hleaves, -⟩ := walks_eq hbuilt
  obtain rfl := Except.ok.inj ht
  have hminus := hwalks 3 _ (.node rfl (.leaf rfl) (.leaf rfl))
  have hfirst := hwalks 0 _ (.leaf rfl)
  have hall := hwalks _ _ hroot
  exact ⟨_, hbuilt, hleaves, hall.height, ⟨hdescending, hall.text⟩, hminus.span, hfirst.span⟩

end Arena

end Reckon
