import Mathlib
import Reckon.Proofs.Term.Reading
import Reckon.Proofs.Term.Schedule
import Reckon.Scalar

/-!
# The meaning of a tree

`Tree.meaning?` is the value of a tree by recursion on its operands.  A tree that is bound is
computed to this value, or else the computation reports the first call, in postfix order, whose
function fails on computed arguments.
-/

namespace Reckon

variable {D : Domain}

/-! ## Binding, node by node -/

namespace Typing

variable {s : Typing D} {d : Dialect} {t : Tree} {b : Typed D}

/-- What is bound is no placeholder, so the node above it does not matter. -/
theorem eq_ofTree_of_bind {term : Term} (ht : Term.IsOf d term t) (h : s.bind term = .ok b) :
    term = Term.ofTree d t := by
  obtain ⟨parent, rfl⟩ := ht
  apply Term.whole_eq_ofTree
  intro hk
  cases t with
  | leaf token =>
    have hk : token.kind = .missing := hk
    simp [Term.reading, Term.Reading.ofWhole, Term.ofLeaf, hk, bind] at h
  | node token l r =>
    have hk : token.kind = .missing := hk
    simp [Term.reading, Term.Reading.ofWhole, hk, bind] at h

theorem bind_operands {terms : List Term} {us : List Tree} {typed : List (Typed D)}
    (hus : List.Forall₂ (Term.IsOf d) terms us)
    (h : List.Forall₂ (fun t b => s.bind t = .ok b) terms typed) :
    List.Forall₂ (fun u b => s.bind (Term.ofTree d u) = .ok b) us typed := by
  induction hus generalizing typed with
  | nil =>
    cases h
    exact .nil
  | cons hu _ ih =>
    cases h with
    | cons hb hbs =>
      rw [eq_ofTree_of_bind hu hb] at hb
      exact .cons hb (ih hbs)

/-- A tree that is bound is a literal, a variable, or a call whose operands are bound. -/
theorem bind_ofTree_cases (h : s.bind (Term.ofTree d t) = .ok b) :
    (t.kind = .literal ∧ ∃ v, D.readLiteral t.token.text = some v ∧ b = ⟨.value v, D.kindOf v⟩) ∨
    (t.kind = .identifier ∧
      ∃ kind, s.kindOf t.token.text = some kind ∧ b = ⟨.name t.token, kind⟩) ∨
    ∃ sort overload typed, Term.callSort? t.kind = some sort ∧
      List.Forall₂ (fun u b => s.bind (Term.ofTree d u) = .ok b) (t.operands d) typed ∧
      b = ⟨.call t overload (typed.map (·.bound)), overload.output⟩ := by
  have ht := Term.isOf_ofTree d t
  obtain ⟨token, v, hterm, hv, rfl⟩ | ⟨token, kind, hterm, hkind, rfl⟩ |
    ⟨sort, tree, terms, callable, typed, choice, hterm, hcall⟩ := bind_ok_cases h
  · rw [hterm] at ht
    obtain ⟨hk, rfl⟩ := ht.literal_kind
    exact .inl ⟨hk, v, hv, rfl⟩
  · rw [hterm] at ht
    obtain ⟨hk, rfl⟩ := ht.name_kind
    exact .inr (.inl ⟨hk, kind, hkind, rfl⟩)
  · rw [hterm] at ht
    obtain ⟨hsort, rfl, hoperands⟩ := ht.call_kind
    exact .inr (.inr ⟨sort, choice.overload, typed, hsort,
      bind_operands hoperands hcall.bound, hcall.eq⟩)

end Typing

/-! ## Meaning -/

/-- The overload of a bound call. -/
def Bound.overload? : Bound D → Option (Overload D)
  | call _ overload _ => some overload
  | value _ | name _ => none

/-- The overload that a node of a tree is bound to. -/
def Typing.overload? (s : Typing D) (d : Dialect) (t : Tree) : Option (Overload D) :=
  match s.bind (Term.ofTree d t) with
  | .ok b => b.bound.overload?
  | .error _ => none

namespace Tree

variable (s : Typing D) (d : Dialect) (env : Environment D)

/-- What the function of a call gives on these arguments. -/
def runOn (t : Tree) (overload : Overload D) (values : List D.Value) : Except String D.Value :=
  overload.run values ⟨t.token.text, t.token.position⟩

/-- The value of a tree: what a literal is read as, what a variable is set to, and for a call what
the function of its overload gives on the values of its operands. -/
def meaning? (t : Tree) : Option D.Value :=
  match t.kind with
  | .literal => D.readLiteral t.token.text
  | .identifier => env.get? t.token.text
  | .operator | .unary | .call =>
    (s.overload? d t).bind fun overload =>
      ((t.operands d).attach.mapM fun u => meaning? u.1).bind fun values =>
        (t.runOn overload values).toOption
  | .opening | .closing | .separator | .missing => none
termination_by t.size
decreasing_by exact size_lt_of_mem_operands u.2

/-- A call with the reason why its function fails, if its arguments have values on which it does. -/
def failure? (t : Tree) : Option (Tree × String) :=
  (s.overload? d t).bind fun overload =>
    ((t.operands d).mapM (meaning? s d env)).bind fun values =>
      match t.runOn overload values with
      | .error reason => some (t, reason)
      | .ok _ => none

/-- The first call that fails, in postfix order. -/
def firstFailure? (t : Tree) : Option (Tree × String) := (t.read d).findSome? (failure? s d env)

variable {s d env} {t : Tree}

theorem meaning?_literal (h : t.kind = .literal) :
    t.meaning? s d env = D.readLiteral t.token.text := by
  rw [meaning?, h]

theorem meaning?_name (h : t.kind = .identifier) : t.meaning? s d env = env.get? t.token.text := by
  rw [meaning?, h]

theorem meaning?_call {sort : CallSort} (h : Term.callSort? t.kind = some sort) :
    t.meaning? s d env = (s.overload? d t).bind fun overload =>
      ((t.operands d).mapM (meaning? s d env)).bind fun values =>
        (t.runOn overload values).toOption := by
  have hattach : ((t.operands d).attach.mapM fun u => meaning? s d env u.1) =
      (t.operands d).mapM (meaning? s d env) := by
    rw [List.mapM_subtype (g := meaning? s d env) fun _ _ => rfl, List.unattach_attach]
  rw [meaning?, hattach]
  cases hk : t.kind <;> simp_all [Term.callSort?]

end Tree

/-! ## Evaluation against meaning -/

section

variable {s : Typing D} {d : Dialect} {env : Environment D} {t : Tree}

/-- A bound tree evaluates to its meaning, and no call in it fails; or it has no meaning, and the
first call that fails is reported. -/
inductive Agrees (s : Typing D) (d : Dialect) (env : Environment D) (t : Tree) (b : Bound D) :
    Prop
  | value (v : D.Value) (heval : b.eval env = .ok v) (hmeaning : t.meaning? s d env = some v)
      (hfailure : t.firstFailure? s d env = none)
  | fault (c : Tree) (reason : String) (heval : b.eval env = .error (.failed c reason))
      (hmeaning : t.meaning? s d env = none)
      (hfailure : t.firstFailure? s d env = some (c, reason))

/-- The same for the operands of a call, which are evaluated from left to right. -/
inductive AgreesAll (s : Typing D) (d : Dialect) (env : Environment D) (us : List Tree)
    (bs : List (Bound D)) : Prop
  | values (vs : List D.Value) (heval : Bound.evalAll env bs = .ok vs)
      (hmeaning : us.mapM (Tree.meaning? s d env) = some vs)
      (hfailure : (us.flatMap (Tree.read d)).findSome? (Tree.failure? s d env) = none)
  | fault (c : Tree) (reason : String)
      (heval : Bound.evalAll env bs = .error (.failed c reason))
      (hmeaning : us.mapM (Tree.meaning? s d env) = none)
      (hfailure : (us.flatMap (Tree.read d)).findSome? (Tree.failure? s d env) =
        some (c, reason))

theorem AgreesAll.of_forall₂ {us : List Tree} {bs : List (Bound D)}
    (h : List.Forall₂ (Agrees s d env) us bs) : AgreesAll s d env us bs := by
  induction h with
  | nil => exact .values [] rfl rfl rfl
  | @cons u b us bs hu _ ih =>
    cases hu with
    | fault c reason heval hmeaning hfailure =>
      refine .fault c reason ?_ ?_ ?_
      · rw [Bound.evalAll, heval]
      · rw [List.mapM_cons, hmeaning]
        rfl
      · rw [Tree.firstFailure?] at hfailure
        rw [List.flatMap_cons, List.findSome?_append, hfailure]
        rfl
    | value v heval hmeaning hfailure =>
      rw [Tree.firstFailure?] at hfailure
      cases ih with
      | fault c reason hevals hmeanings hfailures =>
        refine .fault c reason ?_ ?_ ?_
        · rw [Bound.evalAll, heval, hevals]
        · rw [List.mapM_cons, hmeaning, hmeanings]
          rfl
        · rw [List.flatMap_cons, List.findSome?_append, hfailure, hfailures]
          rfl
      | values vs hevals hmeanings hfailures =>
        refine .values (v :: vs) ?_ ?_ ?_
        · rw [Bound.evalAll, heval, hevals]
        · rw [List.mapM_cons, hmeaning, hmeanings]
          rfl
        · rw [List.flatMap_cons, List.findSome?_append, hfailure, hfailures]
          rfl

/-- A node that is no call has no operands and cannot fail. -/
theorem Tree.firstFailure?_of_overload?_none (ho : s.overload? d t = none)
    (hn : t.operands d = []) : t.firstFailure? s d env = none := by
  rw [firstFailure?, read_of_operands_nil hn]
  simp [failure?, ho]

theorem Tree.operands_of_callSort?_none (h : Term.callSort? t.kind = none) :
    t.operands d = [] := by
  cases t with
  | leaf token => rfl
  | node token l r =>
    have h : Term.callSort? token.kind = none := h
    rw [operands]
    cases hk : token.kind <;> simp_all [Term.callSort?]

/-- A call agrees as soon as its operands do. -/
theorem AgreesAll.call {sort : CallSort} {overload : Overload D} {bs : List (Bound D)}
    (hk : Term.callSort? t.kind = some sort) (ho : s.overload? d t = some overload)
    (h : AgreesAll s d env (t.operands d) bs) : Agrees s d env t (.call t overload bs) := by
  have hfirst : t.firstFailure? s d env =
      (((t.operands d).flatMap (Tree.read d)).findSome? (Tree.failure? s d env)).or
        (t.failure? s d env) := by
    rw [Tree.firstFailure?, Tree.read_eq, List.findSome?_append]
    simp
  cases h with
  | fault c reason heval hmeaning hfailure =>
    refine .fault c reason ?_ ?_ ?_
    · rw [Bound.eval, heval]
    · rw [Tree.meaning?_call hk, ho, hmeaning]
      rfl
    · rw [hfirst, hfailure]
      rfl
  | values vs heval hmeaning hfailure =>
    have hvalue : t.meaning? s d env = (t.runOn overload vs).toOption := by
      rw [Tree.meaning?_call hk, ho, hmeaning]
      rfl
    have hfail : t.failure? s d env =
        match t.runOn overload vs with
        | .error reason => some (t, reason)
        | .ok _ => none := by
      rw [Tree.failure?, ho, hmeaning]
      rfl
    rw [hfailure, Option.none_or, hfail] at hfirst
    cases hrun : t.runOn overload vs with
    | ok v =>
      rw [hrun] at hvalue hfirst
      refine .value v ?_ hvalue hfirst
      rw [Bound.eval, heval]
      show Bound.runCall t overload vs = .ok v
      rw [Tree.runOn] at hrun
      rw [Bound.runCall, hrun]
    | error reason =>
      rw [hrun] at hvalue hfirst
      refine .fault t reason ?_ hvalue hfirst
      rw [Bound.eval, heval]
      show Bound.runCall t overload vs = .error (.failed t reason)
      rw [Tree.runOn] at hrun
      rw [Bound.runCall, hrun]

theorem agrees_of_bind {b : Typed D} (hs : s.kindOf = env.kindOf?)
    (h : s.bind (Term.ofTree d t) = .ok b) : Agrees s d env t b.bound := by
  induction hn : t.size using Nat.strongRecOn generalizing t b with
  | _ n ih =>
    have ho : s.overload? d t = b.bound.overload? := by rw [Typing.overload?, h]
    obtain ⟨hk, v, hv, rfl⟩ | ⟨hk, kind, hkind, rfl⟩ | ⟨sort, overload, typed, hk, hoperands, rfl⟩ :=
      Typing.bind_ofTree_cases h
    · have hoperands := Tree.operands_of_callSort?_none (t := t) (d := d) (by rw [hk]; rfl)
      refine .value v rfl ?_ (Tree.firstFailure?_of_overload?_none ho hoperands)
      rw [Tree.meaning?_literal hk, hv]
    · have hoperands := Tree.operands_of_callSort?_none (t := t) (d := d) (by rw [hk]; rfl)
      rw [hs, OrderedMap.kindOf?] at hkind
      obtain ⟨v, hv, -⟩ := Option.map_eq_some_iff.mp hkind
      refine .value v ?_ ?_ (Tree.firstFailure?_of_overload?_none ho hoperands)
      · rw [Bound.eval, hv]
      · rw [Tree.meaning?_name hk, hv]
    · refine AgreesAll.call hk ho (AgreesAll.of_forall₂ ?_)
      have hsmall := (List.forall₂_and_left _ _).mpr
        ⟨fun u hu => Tree.size_lt_of_mem_operands (d := d) hu, hoperands⟩
      rw [List.forall₂_map_right_iff]
      refine hsmall.imp fun u b hu => ih u.size (by omega) hu.2 rfl

/-! ## Computing -/

theorem EvalFault.code_failed (c : Tree) (reason : String) :
    (EvalFault.failed c reason).diagnostic.code = some .calculationFailed := by
  cases hspan : c.span <;> simp [diagnostic, Diagnostic.pointing, Diagnostic.coded, hspan]

/-- **Computing gives the meaning.**  If a tree is bound with the kinds of the variables that it is
computed with, then the computation gives the meaning of the tree, and where there is none it
reports the first call in postfix order whose function fails.  No other fault can arise: no value is
missing or taken twice, no literal is unreadable, no variable unbound, no call unresolved. -/
theorem Term.compute_eq_ok_iff_meaning {b : Typed D} (hs : s.kindOf = env.kindOf?)
    (h : s.bind (Term.ofTree d t) = .ok b) :
    (∀ v, (Term.ofTree d t).compute env b.bound.callTable = .ok v ↔
      t.meaning? s d env = some v) ∧
    (t.meaning? s d env = none → ∃ c reason, t.firstFailure? s d env = some (c, reason) ∧
      (Term.ofTree d t).compute env b.bound.callTable = .error (.failed c reason)) ∧
    ∀ fault, (Term.ofTree d t).compute env b.bound.callTable = .error fault →
      fault.diagnostic.code = some .calculationFailed := by
  rw [Term.compute_eq_eval env h]
  cases agrees_of_bind hs h with
  | value v heval hmeaning hfailure =>
    rw [heval, hmeaning]
    refine ⟨fun w => ?_, fun hnone => (nomatch hnone), fun fault hfault => nomatch hfault⟩
    rw [Except.ok.injEq, Option.some.injEq]
  | fault c reason heval hmeaning hfailure =>
    rw [heval, hmeaning]
    refine ⟨fun w => ⟨fun hw => (nomatch hw), fun hw => (nomatch hw)⟩, ?_, ?_⟩
    · intro _
      exact ⟨c, reason, hfailure, rfl⟩
    · intro fault hfault
      rw [← Except.error.inj hfault]
      exact EvalFault.code_failed c reason

end

/-! ## Whole numbers -/

namespace Scalar

/-- An overload for some number of integers. -/
def integerOverload (count : Nat) (op : List Int → Except String Int) : Overload scalars where
  inputs := .fixed (List.replicate count [ScalarKind.int])
  output := ScalarKind.int
  run := fun vs _ =>
    match integers vs with
    | some is => (op is).map int
    | none => .error "not integers"

/-- Sums, and a factorial that is too large for any integer. -/
def sums : Catalog scalars where
  functions := []
  operators := [{ name := "+", overloads := [integerOverload 2 fun is => .ok is.sum] }]
  unaries := [{ name := "!", overloads := [integerOverload 1 fun _ => .error "too large"] }]
  custom := []

/-- Typing with sums and the kinds of some variables. -/
def sumTyping (env : Environment scalars) : Typing scalars := ⟨sums, env.kindOf?, false⟩

/-- One variable. -/
def three : Environment scalars := OrderedMap.ofList [("x", int 3)]

end Scalar

end Reckon
