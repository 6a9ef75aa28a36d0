import Reckon.Proofs.Term.Binder
import Reckon.Proofs.Term.Schedule
import Reckon.Proofs.Tree.Walks
import Reckon.Term.Computing

/-!
# Computing in a row gives the meaning

`Arena.compute` finds the nodes to be computed from the calls that binding left.  These are the
nodes that were bound (`Arena.called_eq_reachable`), each behind those that it takes values from.
When the nodes below a node are done, its value is in its slot and all other slots are as they were
(`Computes`): every value below it was put once and taken once.
-/

namespace Reckon

variable {D : Domain}

/-! ## Slots by number -/

namespace Slots

variable {slots : Slots D} {ids : List Nat} {id : Nat}

/-- Puts values into slots. -/
def put (slots : Slots D) : List Nat → List D.Value → Slots D
  | id :: ids, v :: vs => (slots.put ids vs).setIfInBounds id (some v)
  | _, _ => slots

theorem put_setIfInBounds (h : id ∉ ids) (x : Option D.Value) (vs : List D.Value) :
    put (slots.setIfInBounds id x) ids vs = (slots.put ids vs).setIfInBounds id x := by
  induction ids generalizing vs with
  | nil => rfl
  | cons i ids ih =>
    cases vs with
    | nil => rfl
    | cons v vs =>
      rw [List.mem_cons, not_or] at h
      rw [put, put, ih h.2, Array.setIfInBounds_comm _ _ h.1]

theorem getElem?_put (h : id ∉ ids) (vs : List D.Value) :
    (slots.put ids vs)[id]? = slots[id]? := by
  induction ids generalizing vs with
  | nil => rfl
  | cons i ids ih =>
    cases vs with
    | nil => rfl
    | cons v vs =>
      rw [List.mem_cons, not_or] at h
      rw [put, Array.getElem?_setIfInBounds_ne (Ne.symm h.1), ih h.2]

/-- A value that was put into an empty slot can be taken, and the slot is empty again. -/
theorem take_setIfInBounds (h : slots[id]? = some none) (v : D.Value) (owner : Option Token) :
    take (slots.setIfInBounds id (some v)) ⟨id, owner⟩ = .ok (v, slots) := by
  have hlt := (Array.getElem?_eq_some_iff.mp h).1
  have hset : (slots.setIfInBounds id (some v)).setIfInBounds id none = slots := by
    refine Array.ext_getElem? fun i => ?_
    rw [Array.setIfInBounds_setIfInBounds, Array.getElem?_setIfInBounds]
    by_cases hid : id = i
    · rw [if_pos hid, if_pos hlt, ← hid, h]
    · rw [if_neg hid]
  simp only [take, Array.getElem?_setIfInBounds_self_of_lt hlt, hset]

/-- Values that were put into different empty slots are all there, and taking them undoes the
putting. -/
theorem takeAll_put {vs : List D.Value} (hlength : vs.length = ids.length) (hnodup : ids.Nodup)
    (hempty : ∀ id ∈ ids, slots[id]? = some none) (owner : Nat → Option Token) :
    (slots.put ids vs).takeAll (ids.map fun id => ⟨id, owner id⟩) = .ok (vs, slots) := by
  induction ids generalizing vs with
  | nil =>
    rw [List.length_eq_zero_iff.mp hlength]
    rfl
  | cons id ids ih =>
    cases vs with
    | nil => cases hlength
    | cons v vs =>
      rw [List.nodup_cons] at hnodup
      rw [List.forall_mem_cons] at hempty
      have hslot : (slots.put ids vs)[id]? = some none :=
        (getElem?_put hnodup.1 vs).trans hempty.1
      have hrest := ih (Nat.succ.inj hlength) hnodup.2 hempty.2
      exact takeAll_cons (take_setIfInBounds hslot v (owner id)) hrest

end Slots

/-! ## Calls -/

variable {s : Typing D} {d : Dialect} {t u : Tree} {e : Tree.Entry} {env : Environment D}
  {binding : Binding D} {b : Typed D}

namespace Typing

theorem exists_bind_of_mem_operands (h : s.bind (Term.ofTree d t) = .ok b)
    (hu : u ∈ t.operands d) : ∃ b, s.bind (Term.ofTree d u) = .ok b := by
  obtain ⟨hk, -⟩ | ⟨hk, -⟩ | ⟨sort, overload, typed, hk, hoperands, -⟩ := bind_ofTree_cases h
  · rw [Tree.operands_of_callSort?_none (by rw [hk]; rfl)] at hu
    cases hu
  · rw [Tree.operands_of_callSort?_none (by rw [hk]; rfl)] at hu
    cases hu
  · have hbound := hoperands.imp fun v b hb =>
      (⟨⟨b, hb⟩, hb⟩ : (∃ b, s.bind (Term.ofTree d v) = .ok b) ∧ _)
    exact ((List.forall₂_and_left _ _).mp hbound).1 u hu

/-- All that is read is bound if the root is. -/
theorem exists_bind_of_reached (h : s.bind (Term.ofTree d t) = .ok b)
    (he : Tree.Reached d t e) : ∃ b, s.bind (Term.ofTree d e.tree) = .ok b := by
  induction he with
  | root => exact ⟨b, h⟩
  | @operand e o _ ho ih =>
    obtain ⟨b, hb⟩ := ih
    have ho := List.mem_map_of_mem (f := (·.tree)) ho
    rw [Tree.Entry.map_tree_operands] at ho
    exact exists_bind_of_mem_operands hb ho

/-- A node that is bound and calls nothing takes no values. -/
theorem operands_of_call?_none (h : s.bind (Term.ofTree d e.tree) = .ok b)
    (hcall : s.call? d e = none) : e.operands d = [] := by
  rw [call?, Option.map_eq_none_iff, overload?, h] at hcall
  obtain ⟨hk, -⟩ | ⟨hk, -⟩ | ⟨sort, overload, typed, -, -, rfl⟩ := bind_ofTree_cases h
  · exact Tree.Entry.operands_of_callSort?_none (by rw [hk]; rfl)
  · exact Tree.Entry.operands_of_callSort?_none (by rw [hk]; rfl)
  · cases hcall

end Typing

/-- A node that is read has the call that it was bound to. -/
theorem Binding.call?_of_bind (h : t.arena.bind s d = .ok binding)
    (he : e ∈ t.rootEntry.read d) : binding.call? e.id = s.call? d e := by
  have hcalls := (Binder.knows_run s d t).calls e he
  rw [Arena.bind] at h
  split at h
  · cases h
  · split at h
    · rw [← Except.ok.inj h, call?, hcalls, Option.join_some]
    · cases h

theorem Binding.operandsOf_of_bind (hbinding : t.arena.bind s d = .ok binding)
    (h : s.bind (Term.ofTree d t) = .ok b) (he : e ∈ t.rootEntry.read d) :
    binding.operandsOf e.id = (e.operands d).map (·.id) := by
  obtain ⟨b, hb⟩ := Typing.exists_bind_of_reached h (Tree.mem_read_iff_reached.mp he)
  rw [operandsOf, call?_of_bind hbinding he]
  cases hcall : s.call? d e with
  | none =>
    rw [Typing.operands_of_call?_none hb hcall]
    rfl
  | some call =>
    obtain ⟨overload, -, rfl⟩ := Option.map_eq_some_iff.mp hcall
    rfl

/-- The calls lead to the nodes that were bound. -/
theorem Arena.called_eq_reachable (hbinding : t.arena.bind s d = .ok binding)
    (h : s.bind (Term.ofTree d t) = .ok b) : t.arena.called binding = t.arena.reachable d := by
  have hroot : [t.arena.root] = [t.rootEntry].map (·.id) := rfl
  have hread : [t.rootEntry].flatMap (Tree.Entry.read d) = t.rootEntry.read d :=
    List.flatMap_singleton ..
  rw [called, reachable, hroot]
  refine mark_congr (d := d) (fun e he => ?_) fun e he => ?_
  · rw [hread] at he
    exact Binding.operandsOf_of_bind hbinding h he
  · rw [hread] at he
    exact operandsOf_arena ((t.read_sublist_entries d).subset he)

/-! ## One node -/

theorem Bound.length_evalAll {bs : List (Bound D)} {vs : List D.Value}
    (h : evalAll env bs = .ok vs) : vs.length = bs.length := by
  induction bs generalizing vs with
  | nil =>
    rw [← Except.ok.inj h]
    rfl
  | cons b bs ih =>
    rw [evalAll] at h
    split at h
    · split at h
      · rename_i more hmore
        rw [← Except.ok.inj h, List.length_cons, ih hmore, List.length_cons]
      · cases h
    · cases h

namespace Arena

theorem computeNode_of_callSort? {a : Arena} {values : Slots D} {token : Token} {sort : CallSort}
    {id : Nat} (hk : Term.callSort? token.kind = some sort) :
    computeNode env binding a values token id = computeCall binding a values token id := by
  unfold computeNode
  cases hkind : token.kind <;> simp [hkind, Term.callSort?] at hk ⊢

theorem failedAt_arena (he : e ∈ t.entries) (reason : String) :
    t.arena.failedAt e.id e.tree.token reason = (EvalFault.failed e.tree reason).diagnostic := by
  rw [failedAt, (bears_arena he rfl).spanAt?_eq (descending_arena t)]
  rfl

/-- A call that can take its values is computed from them. -/
theorem computeNext_call {values left : Slots D} {sort : CallSort} {overload : Overload D}
    {ids : List Nat} {vs : List D.Value} (he : e ∈ t.entries)
    (hk : Term.callSort? e.tree.kind = some sort)
    (hcall : binding.call? e.id = some (overload, ids))
    (htake : values.takeAll (ids.map fun id => ⟨id, t.arena.ownerOf id⟩) = .ok (vs, left)) :
    computeNext env binding t.arena values (e.node, e.id) =
      ((Bound.runCall e.tree overload vs).mapError (·.diagnostic)).map fun v =>
        left.setIfInBounds e.id (some v) := by
  have htoken : e.node.token = e.tree.token := rfl
  rw [computeNext, htoken, computeNode_of_callSort? hk, computeCall, hcall]
  dsimp only
  rw [htake, Bound.runCall]
  dsimp only
  cases overload.run vs ⟨e.tree.token.text, e.tree.token.position⟩ with
  | ok v => rfl
  | error reason => exact congrArg Except.error (failedAt_arena he reason)

end Arena

/-! ## All nodes -/

/-- Computes some nodes of a tree, one after another. -/
def computeAll (env : Environment D) (binding : Binding D) (t : Tree) (values : Slots D)
    (es : List Tree.Entry) : Except Diagnostic (Slots D) :=
  es.foldlM (fun values e => Arena.computeNext env binding t.arena values (e.node, e.id)) values

theorem computeAll_append (values : Slots D) (es os : List Tree.Entry) :
    computeAll env binding t values (es ++ os) =
      (computeAll env binding t values es).bind fun values => computeAll env binding t values os :=
  List.foldlM_append

theorem computeAll_singleton (values : Slots D) (e : Tree.Entry) :
    computeAll env binding t values [e] =
      Arena.computeNext env binding t.arena values (e.node, e.id) :=
  bind_pure _

/-- Computing the nodes below a node puts the value of a bound term into its slot and leaves nothing
else, or tells the fault of the term. -/
def Computes (env : Environment D) (binding : Binding D) (t : Tree) (d : Dialect)
    (e : Tree.Entry) (b : Bound D) : Prop :=
  ∀ values : Slots D, (∀ o ∈ e.read d, values[o.id]? = some none) →
    computeAll env binding t values (e.read d) =
      ((b.eval env).mapError (·.diagnostic)).map fun v => values.setIfInBounds e.id (some v)

/-- The operands of a call are computed into their slots. -/
theorem computeAll_operands {es : List Tree.Entry} {bs : List (Bound D)} {values : Slots D}
    (h : List.Forall₂ (Computes env binding t d) es bs)
    (hordered : (es.flatMap (Tree.Entry.read d)).Pairwise fun o p => o.id < p.id)
    (hempty : ∀ o ∈ es.flatMap (Tree.Entry.read d), values[o.id]? = some none) :
    computeAll env binding t values (es.flatMap (Tree.Entry.read d)) =
      ((Bound.evalAll env bs).mapError (·.diagnostic)).map fun vs =>
        values.put (es.map (·.id)) vs := by
  induction h generalizing values with
  | nil => rfl
  | @cons e b es bs he _ ih =>
    rw [List.flatMap_cons] at hordered hempty ⊢
    rw [List.forall_mem_append] at hempty
    obtain ⟨-, hrest, hbefore⟩ := List.pairwise_append.mp hordered
    rw [computeAll_append, he values hempty.1, Bound.evalAll]
    cases b.eval env with
    | error fault => rfl
    | ok v =>
      -- the slots of the other operands are still empty
      have hother : ∀ o ∈ es.flatMap (Tree.Entry.read d), e.id ≠ o.id := fun o ho =>
        Nat.ne_of_lt (hbefore e (e.mem_read_self d) o ho)
      have hslots : ∀ o ∈ es.flatMap (Tree.Entry.read d),
          (values.setIfInBounds e.id (some v))[o.id]? = some none := fun o ho => by
        rw [Array.getElem?_setIfInBounds_ne (hother o ho), hempty.2 o ho]
      show computeAll env binding t (values.setIfInBounds e.id (some v)) _ = _
      rw [ih hrest hslots]
      cases Bound.evalAll env bs with
      | error fault => rfl
      | ok vs =>
        refine congrArg Except.ok (Slots.put_setIfInBounds (fun hmem => ?_) (some v) vs)
        obtain ⟨o, ho, hid⟩ := List.mem_map.mp hmem
        have hread : o ∈ es.flatMap (Tree.Entry.read d) :=
          List.mem_flatMap.mpr ⟨o, ho, o.mem_read_self d⟩
        exact hother o hread hid.symm

/-- A node without operands is computed by itself. -/
theorem computes_leaf {b : Bound D} (hoperands : e.operands d = [])
    (hnode : ∀ values : Slots D, Arena.computeNode env binding t.arena values e.tree.token e.id =
      ((b.eval env).mapError (·.diagnostic)).map (·, values)) : Computes env binding t d e b := by
  intro values _
  have hread : e.read d = [e] := by
    rw [Tree.Entry.read_eq, hoperands, List.flatMap_nil, List.nil_append]
  have htoken : e.node.token = e.tree.token := rfl
  rw [hread, computeAll_singleton, Arena.computeNext, htoken, hnode values]
  cases b.eval env <;> rfl

/-- A call is computed when its operands are. -/
theorem computes_call {sort : CallSort} {overload : Overload D} {bs : List (Bound D)}
    (hread : (e.read d).Sublist t.entries) (hk : Term.callSort? e.tree.kind = some sort)
    (hcall : binding.call? e.id = some (overload, (e.operands d).map (·.id)))
    (h : List.Forall₂ (Computes env binding t d) (e.operands d) bs) :
    Computes env binding t d e (.call e.tree overload bs) := by
  intro values hempty
  have he := hread.subset (e.mem_read_self d)
  rw [Tree.Entry.read_eq] at hread hempty ⊢
  have hordered := t.pairwise_id_entries.sublist ((List.sublist_append_left _ _).trans hread)
  have hempty := (List.forall_mem_append.mp hempty).1
  rw [computeAll_append, computeAll_operands h hordered hempty, Bound.eval]
  cases hvs : Bound.evalAll env bs with
  | error fault => rfl
  | ok vs =>
    have hlength : vs.length = ((e.operands d).map (·.id)).length := by
      rw [Bound.length_evalAll hvs, List.length_map, h.length_eq]
    have hnodup : ((e.operands d).map (·.id)).Nodup :=
      List.pairwise_map.mpr
        ((hordered.sublist (Tree.Entry.sublist_flatMap_read d _)).imp Nat.ne_of_lt)
    have hslots : ∀ id ∈ (e.operands d).map (·.id), values[id]? = some none := by
      intro id hid
      obtain ⟨o, ho, rfl⟩ := List.mem_map.mp hid
      exact hempty o (List.mem_flatMap.mpr ⟨o, ho, o.mem_read_self d⟩)
    show computeAll env binding t (values.put _ vs) [e] = _
    rw [computeAll_singleton]
    exact Arena.computeNext_call he hk hcall (Slots.takeAll_put hlength hnodup hslots _)

/-- A bound tree is computed in its place.  The induction goes from operands to the node that takes
them; they are read in a part of the row of nodes, so their slots are different. -/
theorem computes_of_bind (hbinding : t.arena.bind s d = .ok binding)
    (hread : (e.read d).Sublist (t.rootEntry.read d))
    (h : s.bind (Term.ofTree d e.tree) = .ok b) : Computes env binding t d e b.bound := by
  induction hn : e.tree.size using Nat.strongRecOn generalizing e b with
  | _ n ih =>
    have he := hread.subset (e.mem_read_self d)
    obtain ⟨hk, v, hv, rfl⟩ | ⟨hk, kind, -, rfl⟩ | ⟨sort, overload, typed, hk, hoperands, rfl⟩ :=
      Typing.bind_ofTree_cases h
    · have htoken : e.tree.token.kind = .literal := hk
      have hnone := Tree.Entry.operands_of_callSort?_none (e := e) (d := d) (by rw [hk]; rfl)
      refine computes_leaf hnone fun values => ?_
      simp only [Arena.computeNode, htoken, hv]
      rfl
    · have htoken : e.tree.token.kind = .identifier := hk
      have hnone := Tree.Entry.operands_of_callSort?_none (e := e) (d := d) (by rw [hk]; rfl)
      refine computes_leaf hnone fun values => ?_
      simp only [Arena.computeNode, htoken, Bound.eval]
      cases env.get? e.tree.token.text <;> rfl
    · have hcall : binding.call? e.id = some (overload, (e.operands d).map (·.id)) := by
        rw [Binding.call?_of_bind hbinding he, Typing.call?, Typing.overload?, h]
        rfl
      refine computes_call (hread.trans (t.read_sublist_entries d)) hk hcall ?_
      rw [← Tree.Entry.map_tree_operands, List.forall₂_map_left_iff] at hoperands
      have hmem := (List.forall₂_and_left _ _).mpr ⟨fun o ho => ho, hoperands⟩
      rw [List.forall₂_map_right_iff]
      refine hmem.imp fun o b ho => ?_
      have hsize := Tree.Entry.size_lt_of_mem_operands ho.1
      have hbelow := (Tree.Entry.read_sublist_of_mem_operands ho.1).trans hread
      exact ih _ (hn ▸ hsize) hbelow ho.2 rfl

namespace Arena

/-- The nodes that are computed are those that were bound, in their order. -/
theorem filter_called (hbinding : t.arena.bind s d = .ok binding)
    (h : s.bind (Term.ofTree d t) = .ok b) :
    (t.arena.nodes.toList.zipIdx.filter fun x => (t.arena.called binding)[x.2]? = some true) =
      (t.rootEntry.read d).map fun e => (e.node, e.id) := by
  rw [called_eq_reachable hbinding h, toList_nodes_arena, zipIdx_entries, List.filter_map,
    ← Binder.filter_reachable]
  rfl

theorem compute_eq_eval (hbinding : t.arena.bind s d = .ok binding)
    (h : s.bind (Term.ofTree d t) = .ok b) :
    t.arena.compute env binding = (b.bound.eval env).mapError (·.diagnostic) := by
  have hempty : ∀ e ∈ t.rootEntry.read d,
      (Array.replicate t.entries.length (none : Option D.Value))[e.id]? = some none := by
    intro e he
    have hlt := Tree.id_lt_of_mem_entries ((t.read_sublist_entries d).subset he)
    rw [Array.getElem?_replicate, if_pos hlt]
  have hcomputes : Computes env binding t d t.rootEntry b.bound :=
    computes_of_bind hbinding (List.Sublist.refl _) h
  have hall := hcomputes _ hempty
  rw [computeAll] at hall
  rw [compute, filter_called hbinding h, List.foldlM_map, size_nodes_arena, hall]
  cases b.bound.eval env with
  | error fault => rfl
  | ok v =>
    have hroot := hempty t.rootEntry (t.rootEntry.mem_read_self d)
    have hlt := (Array.getElem?_eq_some_iff.mp hroot).1
    have hid : t.arena.root = t.rootEntry.id := rfl
    have hvalue : ((Array.replicate t.entries.length none).setIfInBounds t.rootEntry.id
        (some v))[t.arena.root]?.join = some v := by
      rw [hid, Array.getElem?_setIfInBounds_self_of_lt hlt, Option.join_some]
    simp only [Except.mapError, Except.map, hvalue]

/-- **Computing gives the meaning of the expression.**  Let the calls of a tree that is built be
bound with the kinds of the variables that it is computed with.  Then every node that is read has
the overload that the typing of its subtree chose, with its operands in order.  The computation gives
the meaning of the tree; where there is none, it tells of the first call, in postfix order, whose
function fails on the values of its operands.  It tells of nothing else: no value is missing or taken
twice, no literal is unreadable, no variable unbound, no call unresolved, no separator astray.
Running the schedule of the term comes to the same. -/
theorem compute_follows_meaning {ts : List Token} {a : Arena} (ha : ofPolish ts = .ok a)
    (hs : s.kindOf = env.kindOf?) (hbinding : a.bind s d = .ok binding) :
    ∃ t, Tree.ofPolish ts = .ok t ∧ a = t.arena ∧
      (∀ e, Tree.Reached d t e → binding.call? e.id = s.call? d e) ∧
      (∀ v, a.compute env binding = .ok v ↔ t.meaning? s d env = some v) ∧
      (t.meaning? s d env = none → ∃ c reason, t.firstFailure? s d env = some (c, reason) ∧
        a.compute env binding = .error (EvalFault.failed c reason).diagnostic) ∧
      (∀ g, a.compute env binding = .error g → g.code = some .calculationFailed) ∧
      ∃ b, s.bind (Term.ofTree d t) = .ok b ∧ a.compute env binding =
        ((Term.ofTree d t).compute env b.bound.callTable).mapError (·.diagnostic) := by
  obtain ⟨t, ht, rfl⟩ := exists_tree_of_ofPolish ha
  obtain ⟨b, hb⟩ : ∃ b, s.bind (Term.ofTree d t) = .ok b := by
    obtain ⟨b, -, hb, -⟩ | ⟨faults, -, herror, -⟩ := bind_arena_cases s d t
    · exact ⟨b, hb⟩
    · rw [hbinding] at herror
      cases herror
  have hschedule : t.arena.compute env binding =
      ((Term.ofTree d t).compute env b.bound.callTable).mapError (·.diagnostic) := by
    rw [compute_eq_eval hbinding hb, Term.compute_eq_eval env hb]
  obtain ⟨hvalue, hfailure, hcode⟩ := Term.compute_eq_ok_iff_meaning hs hb
  refine ⟨t, ht, rfl, fun e he => ?_, fun v => ?_, fun hnone => ?_, fun g hg => ?_, b, hb,
    hschedule⟩
  · exact Binding.call?_of_bind hbinding (Tree.mem_read_iff_reached.mpr he)
  · rw [hschedule, mapError_eq_ok_iff, hvalue]
  · obtain ⟨c, reason, hfirst, herror⟩ := hfailure hnone
    refine ⟨c, reason, hfirst, ?_⟩
    rw [hschedule, herror]
    rfl
  · rw [hschedule, mapError_eq_error_iff] at hg
    obtain ⟨fault, hfault, rfl⟩ := hg
    exact hcode fault hfault

/-- The expression `x! + 2!` in reverse Polish order. -/
def factorials : List Token :=
  [⟨.identifier, "x", some 0⟩, ⟨.missing, "", none⟩, ⟨.unary, "!", some 1⟩,
    ⟨.literal, "2", some 5⟩, ⟨.missing, "", none⟩, ⟨.unary, "!", some 6⟩,
    ⟨.operator, "+", some 3⟩]

/-- The sum `2 + x` has a value.  Of two factorials that are too large, the first one is told. -/
theorem compute_follows_meaning_of_sums :
    (∃ t, Tree.ofPolish plainSum = .ok t ∧
      t.meaning? (Scalar.sumTyping Scalar.three) .standard Scalar.three = some (Scalar.int 5)) ∧
    ∃ t c reason, Tree.ofPolish factorials = .ok t ∧
      t.meaning? (Scalar.sumTyping Scalar.three) .standard Scalar.three = none ∧
      t.firstFailure? (Scalar.sumTyping Scalar.three) .standard Scalar.three = some (c, reason) ∧
      (EvalFault.failed c reason).diagnostic.message = "`!` failed: too large" ∧
      (EvalFault.failed c reason).diagnostic.labels.map (·.span.stop) = [2] := by
  have hsum : ∃ a binding, ofPolish plainSum = .ok a ∧
      a.bind (Scalar.sumTyping Scalar.three) .standard = .ok binding ∧
      a.compute Scalar.three binding = .ok (Scalar.int 5) := ⟨_, _, rfl, rfl, rfl⟩
  have hfactorials : ∃ a binding g, ofPolish factorials = .ok a ∧
      a.bind (Scalar.sumTyping Scalar.three) .standard = .ok binding ∧
      a.compute Scalar.three binding = .error g ∧ g.message = "`!` failed: too large" ∧
      g.labels.map (·.span.stop) = [2] := ⟨_, _, _, rfl, rfl, rfl, rfl, rfl⟩
  obtain ⟨a, binding, ha, hbinding, hcompute⟩ := hsum
  obtain ⟨a', binding', g, ha', hbinding', hcompute', hmessage, hlabels⟩ := hfactorials
  obtain ⟨t, ht, -, -, hvalue, -⟩ := compute_follows_meaning ha rfl hbinding
  obtain ⟨t', ht', -, -, hvalue', hfailure, -⟩ := compute_follows_meaning ha' rfl hbinding'
  have hnone : t'.meaning? (Scalar.sumTyping Scalar.three) .standard Scalar.three = none := by
    refine Option.eq_none_iff_forall_ne_some.mpr fun v hv => ?_
    rw [(hvalue' v).mpr hv] at hcompute'
    cases hcompute'
  obtain ⟨c, reason, hfirst, herror⟩ := hfailure hnone
  obtain rfl := Except.error.inj (hcompute'.symm.trans herror)
  exact ⟨⟨t, ht, (hvalue _).mp hcompute⟩, t', c, reason, ht', hnone, hfirst, hmessage, hlabels⟩

end Arena

end Reckon
