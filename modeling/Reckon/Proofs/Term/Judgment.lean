import Reckon.Proofs.Term.Faults
import Reckon.Proofs.Term.Meaning
import Reckon.Proofs.Term.Operands
import Reckon.Term.Binder

/-!
# Judging node by node

`Typing.judgment` is what comes of one node when the kinds of its operands are known.  Typing a tree
is judging each node that is read: the kind and the overload of a node are those of its judgment
(`Typing.kind_judgment`, `Typing.overload_judgment`), and the faults of a tree are those of the
judgments in order (`Typing.faults_eq_flatMap`).
-/

namespace Reckon

variable {D : Domain} {d : Dialect} {t u : Tree} {term : Term} {e : Tree.Entry}

/-- The text of an argument that is written as a single literal or name. -/
def Tree.argumentText? (u : Tree) : Option String :=
  match u.kind with
  | .literal | .identifier => some u.token.text
  | _ => none

theorem Term.IsOf.argumentText_eq (h : IsOf d term u) : term.argumentText = u.argumentText? := by
  obtain ⟨parent, rfl⟩ := h
  cases u with
  | leaf token =>
    cases hk : token.kind <;>
      simp [reading, Reading.ofWhole, ofLeaf, argumentText, Tree.argumentText?, Tree.kind,
        Tree.token, hk]
  | node token l r =>
    cases hk : token.kind <;>
      simp [reading, Reading.ofWhole, argumentText, Tree.argumentText?, Tree.kind, Tree.token, hk]

theorem Tree.Entry.operands_of_callSort?_none (h : Term.callSort? e.tree.kind = none) :
    e.operands d = [] := by
  have hnil := Tree.operands_of_callSort?_none (d := d) h
  rwa [← Tree.Entry.map_tree_operands, List.map_eq_nil_iff] at hnil

namespace Typing

variable {s : Typing D} {terms : List Term} {us : List Tree} {typed : List (Typed D)}
  {sort : CallSort}

/-- The kind of a tree, if it has one. -/
def kind? (s : Typing D) (d : Dialect) (u : Tree) : Option D.Kind :=
  (s.bind (Term.ofTree d u)).toOption.map (·.kind)

/-- The kind does not depend on the node above. -/
theorem kind_of_isOf (h : Term.IsOf d term u) :
    (s.bind term).toOption.map (·.kind) = s.kind? d u := by
  cases hterm : s.bind term with
  | ok b => rw [kind?, ← eq_ofTree_of_bind h hterm, hterm]
  | error faults =>
    cases hu : s.bind (Term.ofTree d u) with
    | error faults' =>
      rw [kind?, hu]
      rfl
    | ok b =>
      -- what has a kind is no placeholder, so it is read alike under both nodes
      obtain ⟨parent, rfl⟩ := h
      have hk : u.kind ≠ .missing := by
        intro hk
        have hcases := bind_ofTree_cases hu
        simp [hk, Term.callSort?] at hcases
      rw [Term.whole_eq_ofTree parent hk, hu] at hterm
      cases hterm

/-! ## Calls -/

/-- Operands of these kinds as resolution sees them. -/
def argumentsWith (us : List Tree) (kinds : List D.Kind) : List (Argument D.Kind) :=
  (us.zip kinds).map fun p => ⟨p.2, p.1.argumentText?⟩

/-- All operands are bound and have kinds, or some have not. -/
theorem bindAll_cases (h : List.Forall₂ (Term.IsOf d) terms us) :
    (∃ typed, s.bindAll terms = .ok typed ∧ us.mapM (s.kind? d) = some (typed.map (·.kind)) ∧
      argumentsOf terms typed = argumentsWith us (typed.map (·.kind))) ∨
    ∃ faults, s.bindAll terms = .error faults ∧ us.mapM (s.kind? d) = none := by
  induction h with
  | nil => exact .inl ⟨[], rfl, rfl, rfl⟩
  | @cons term u terms us hu _ ih =>
    have hkind := kind_of_isOf (s := s) hu
    rw [bindAll, List.mapM_cons]
    cases hterm : s.bind term with
    | error faults =>
      rw [hterm] at hkind
      refine .inr ?_
      rw [← hkind]
      cases s.bindAll terms <;> exact ⟨_, rfl, rfl⟩
    | ok b =>
      rw [hterm] at hkind
      rw [← hkind]
      obtain ⟨typed, htyped, hkinds, harguments⟩ | ⟨faults, hfaults, hkinds⟩ := ih
      · rw [htyped, hkinds]
        refine .inl ⟨b :: typed, rfl, rfl, ?_⟩
        rw [argumentsOf, List.zip_cons_cons, List.map_cons, ← argumentsOf, harguments,
          hu.argumentText_eq]
        rfl
      · rw [hfaults, hkinds]
        exact .inr ⟨faults, rfl, rfl⟩

/-- The operands of a call as its judgment sees them. -/
def operandsSeen (s : Typing D) (d : Dialect) (us : List Tree) :
    List (Option D.Kind × Option String) :=
  us.map fun u => (s.kind? d u, u.argumentText?)

theorem length_operandsSeen (s : Typing D) (d : Dialect) (us : List Tree) :
    (s.operandsSeen d us).length = us.length := List.length_map _

theorem mapM_operandsSeen (s : Typing D) (d : Dialect) (us : List Tree) :
    (s.operandsSeen d us).mapM (·.1) = us.mapM (s.kind? d) := by
  rw [operandsSeen, List.mapM_map]
  rfl

theorem arguments_operandsSeen (s : Typing D) (d : Dialect) (us : List Tree)
    (kinds : List D.Kind) :
    (((s.operandsSeen d us).zip kinds).map fun p => (⟨p.2, p.1.2⟩ : Argument D.Kind)) =
      argumentsWith us kinds := by
  rw [operandsSeen, List.zip_map_left, List.map_map]
  rfl

section

variable {token : Token}

theorem judgeCall_of_lacks (h : us.length < sort.wanted us.length) :
    s.judgeCall sort token (s.operandsSeen d us) = ⟨none, none, [.missingOperand (some token)]⟩ := by
  simp only [judgeCall, length_operandsSeen, if_pos h]
  split <;> rfl

theorem judgeCall_of_none (h : ¬ us.length < sort.wanted us.length)
    (hkinds : us.mapM (s.kind? d) = none) :
    s.judgeCall sort token (s.operandsSeen d us) = ⟨none, none, []⟩ := by
  simp only [judgeCall, length_operandsSeen, mapM_operandsSeen, if_neg h, hkinds]

theorem judgeCall_of_some {kinds : List D.Kind} (h : ¬ us.length < sort.wanted us.length)
    (hkinds : us.mapM (s.kind? d) = some kinds) :
    s.judgeCall sort token (s.operandsSeen d us) =
      match s.catalog.callable? sort token.text with
      | none => ⟨none, none, [.undeclared sort token]⟩
      | some c =>
        match s.choose c (argumentsWith us kinds) with
        | .error refusal => ⟨none, none, [.refused refusal token.span]⟩
        | .ok choice => ⟨some choice.overload.output, some choice.overload, []⟩ := by
  cases hdeclared : s.catalog.callable? sort token.text with
  | none =>
    simp only [judgeCall, length_operandsSeen, mapM_operandsSeen, if_neg h, hkinds, hdeclared]
  | some c =>
    cases hchosen : s.choose c (argumentsWith us kinds) <;>
      simp only [judgeCall, length_operandsSeen, mapM_operandsSeen, arguments_operandsSeen,
        if_neg h, hkinds, hdeclared, hchosen]

end

/-- A call is bound as it is judged. -/
theorem bind_call (h : List.Forall₂ (Term.IsOf d) terms us) (sort : CallSort) (tree : Tree) :
    (s.bind (.call sort tree terms)).toOption.map (·.kind) =
        (s.judgeCall sort tree.token (s.operandsSeen d us)).kind ∧
      (s.bind (.call sort tree terms)).toOption.bind (·.bound.overload?) =
        (s.judgeCall sort tree.token (s.operandsSeen d us)).overload ∧
      faults (s.bind (.call sort tree terms)) =
        faults (s.bindAll terms) ++ (s.judgeCall sort tree.token (s.operandsSeen d us)).faults := by
  rw [bind, h.length_eq]
  by_cases hshort : us.length < sort.wanted us.length
  · rw [judgeCall_of_lacks hshort]
    cases s.bindAll terms <;> simp only [if_pos hshort] <;> exact ⟨rfl, rfl, rfl⟩
  · simp only [if_neg hshort]
    obtain ⟨typed, htyped, hkinds, harguments⟩ | ⟨fs, hfs, hkinds⟩ := bindAll_cases (s := s) h
    · rw [judgeCall_of_some hshort hkinds, htyped]
      dsimp only
      rw [bindCall, harguments]
      cases s.catalog.callable? sort tree.token.text with
      | none => exact ⟨rfl, rfl, rfl⟩
      | some c =>
        dsimp only
        cases s.choose c (argumentsWith us _) <;> exact ⟨rfl, rfl, rfl⟩
    · rw [judgeCall_of_none hshort hkinds, hfs]
      exact ⟨rfl, rfl, (List.append_nil fs).symm⟩

/-! ## Nodes -/

/-- What comes of a node below the token `owner` when the kinds of its operands are known. -/
def judgment (s : Typing D) (d : Dialect) (owner : Option Token) (u : Tree) : Judgment D :=
  match Term.callSort? u.kind with
  | some sort => s.judgeCall sort u.token (s.operandsSeen d (u.operands d))
  | none => s.judgeToken owner u.token

theorem bind_ofLeaf {owner : Option Token} {token : Token} (hk : Term.callSort? token.kind = none) :
    (s.bind (Term.ofLeaf owner token)).toOption.map (·.kind) = (s.judgeToken owner token).kind ∧
      (s.bind (Term.ofLeaf owner token)).toOption.bind (·.bound.overload?) =
        (s.judgeToken owner token).overload ∧
      faults (s.bind (Term.ofLeaf owner token)) = (s.judgeToken owner token).faults := by
  unfold Term.ofLeaf judgeToken
  cases hkind : token.kind with
  | literal =>
    dsimp only
    rw [bind]
    cases D.readLiteral token.text <;> exact ⟨rfl, rfl, rfl⟩
  | identifier =>
    dsimp only
    rw [bind]
    cases s.kindOf token.text <;> exact ⟨rfl, rfl, rfl⟩
  | operator | unary | call => simp [hkind, Term.callSort?] at hk
  | _ =>
    dsimp only
    rw [bind]
    exact ⟨rfl, rfl, rfl⟩

theorem forall₂_isOf_operands (t : Tree) (e : Tree.Entry) :
    List.Forall₂ (Term.IsOf d) ((e.operands d).map (Tree.Entry.term d t)) (e.tree.operands d) := by
  rw [← Tree.Entry.map_tree_operands, List.forall₂_map_left_iff, List.forall₂_map_right_iff,
    List.forall₂_same]
  exact fun o _ => o.isOf_term d t

theorem kind_judgeToken (s : Typing D) (owner : Option Token) (token : Token) :
    (s.judgeToken owner token).kind = (s.judgeToken none token).kind := by
  unfold judgeToken
  cases token.kind <;> rfl

/-- A node has the kind of its judgment, whatever is above it. -/
theorem kind_judgment (s : Typing D) (d : Dialect) (owner : Option Token) (u : Tree) :
    (s.judgment d owner u).kind = s.kind? d u := by
  have hterm : Term.IsOf d (u.rootEntry.term d u) u := u.rootEntry.isOf_term d u
  rw [← kind_of_isOf (s := s) hterm, judgment]
  cases hk : Term.callSort? u.kind with
  | none =>
    rw [Tree.Entry.term_of_callSort?_none u hk]
    exact (kind_judgeToken s owner u.token).trans (bind_ofLeaf hk).1.symm
  | some sort =>
    rw [Tree.Entry.term_of_callSort? u.rootEntry_mem_entries hk]
    exact (bind_call (forall₂_isOf_operands u u.rootEntry) sort u).1.symm

theorem overload?_eq (s : Typing D) (d : Dialect) (u : Tree) :
    s.overload? d u = (s.bind (Term.ofTree d u)).toOption.bind (·.bound.overload?) := by
  rw [overload?]
  cases s.bind (Term.ofTree d u) <;> rfl

/-- A node is bound to the overload of its judgment. -/
theorem overload_judgment (s : Typing D) (d : Dialect) (owner : Option Token) (u : Tree) :
    (s.judgment d owner u).overload = s.overload? d u := by
  have hterm : Term.ofTree d u = u.rootEntry.term d u := rfl
  rw [overload?_eq, hterm, judgment]
  cases hk : Term.callSort? u.kind with
  | none =>
    have hjudged : (s.judgeToken owner u.token).overload = (s.judgeToken none u.token).overload := by
      unfold judgeToken
      cases u.token.kind <;> rfl
    rw [Tree.Entry.term_of_callSort?_none u hk]
    exact hjudged.trans (bind_ofLeaf hk).2.1.symm
  | some sort =>
    rw [Tree.Entry.term_of_callSort? u.rootEntry_mem_entries hk]
    exact (bind_call (forall₂_isOf_operands u u.rootEntry) sort u).2.1.symm

/-- The faults of a tree are those of the nodes that are read, in order. -/
theorem faults_eq_flatMap (h : e ∈ t.entries) :
    faults (s.bind (e.term d t)) =
      (e.read d).flatMap fun o => (s.judgment d (o.owner t) o.tree).faults := by
  induction hn : e.tree.size using Nat.strongRecOn generalizing e with
  | _ n ih =>
    rw [Tree.Entry.read_eq, List.flatMap_append, List.flatMap_singleton, judgment]
    cases hk : Term.callSort? e.tree.kind with
    | none =>
      rw [Tree.Entry.term_of_callSort?_none t hk, Tree.Entry.operands_of_callSort?_none hk]
      exact (bind_ofLeaf hk).2.2
    | some sort =>
      rw [Tree.Entry.term_of_callSort? h hk,
        (bind_call (forall₂_isOf_operands t e) sort e.tree).2.2, faults_bindAll, List.flatMap_map,
        List.flatMap_assoc]
      congr 1
      refine List.flatMap_congr fun o ho => ?_
      have hsize := Tree.Entry.size_lt_of_mem_operands ho
      exact ih _ (hn ▸ hsize) (Tree.Entry.mem_entries_of_mem_operands h ho).1 rfl

end Typing

end Reckon
