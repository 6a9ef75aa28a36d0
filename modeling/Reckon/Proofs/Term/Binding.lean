import Mathlib.Data.List.Forall2
import Reckon.Term.Typing

/-!
# Binding, case by case

What `Typing.bind` does when it succeeds, said once: a literal is read, a variable has a kind, and a
call has operands that are bound and an overload that takes them.
-/

namespace Reckon.Typing

variable {D : Domain} {s : Typing D} {b : Typed D} {t : Token} {v : D.Value}

theorem bind_literal_ok (h : s.bind (.literal t) = .ok b) :
    ∃ v, D.readLiteral t.text = some v ∧ b = ⟨.value v, D.kindOf v⟩ := by
  rw [bind] at h
  cases hv : D.readLiteral t.text with
  | none =>
    rw [hv] at h
    cases h
  | some v =>
    rw [hv] at h
    exact ⟨v, rfl, (Except.ok.inj h).symm⟩

theorem bind_name_ok (h : s.bind (.name t) = .ok b) :
    ∃ kind, s.kindOf t.text = some kind ∧ b = ⟨.name t, kind⟩ := by
  rw [bind] at h
  cases hk : s.kindOf t.text with
  | none =>
    rw [hk] at h
    cases h
  | some kind =>
    rw [hk] at h
    exact ⟨kind, rfl, (Except.ok.inj h).symm⟩

theorem bindAll_ok {ts : List Term} {typed : List (Typed D)} (h : s.bindAll ts = .ok typed) :
    List.Forall₂ (fun t b => s.bind t = .ok b) ts typed := by
  induction ts generalizing typed with
  | nil =>
    rw [bindAll] at h
    cases h
    exact .nil
  | cons t ts ih =>
    rw [bindAll] at h
    cases ht : s.bind t with
    | error faults => cases hts : s.bindAll ts <;> rw [ht, hts] at h <;> cases h
    | ok b =>
      cases hts : s.bindAll ts with
      | error faults =>
        rw [ht, hts] at h
        cases h
      | ok bs =>
        rw [ht, hts] at h
        cases h
        exact .cons ht (ih hts)

/-- A call that is bound: its operands are bound, its name is declared, and resolution chooses its
overload. -/
structure Binds (s : Typing D) (sort : CallSort) (tree : Tree) (operands : List Term)
    (b : Typed D) (callable : Callable D) (typed : List (Typed D)) (choice : Choice D) :
    Prop where
  bound : List.Forall₂ (fun t b => s.bind t = .ok b) operands typed
  declared : s.catalog.callable? sort tree.token.text = some callable
  chosen : s.choose callable (argumentsOf operands typed) = .ok choice
  eq : b = ⟨.call tree choice.overload (typed.map (·.bound)), choice.overload.output⟩

theorem bindCall_ok {sort : CallSort} {tree : Tree} {operands : List Term} {typed : List (Typed D)}
    (h : s.bindCall sort tree operands typed = .ok b) :
    ∃ callable choice, s.catalog.callable? sort tree.token.text = some callable ∧
      s.choose callable (argumentsOf operands typed) = .ok choice ∧
      b = ⟨.call tree choice.overload (typed.map (·.bound)), choice.overload.output⟩ := by
  rw [bindCall] at h
  cases hc : s.catalog.callable? sort tree.token.text with
  | none =>
    rw [hc] at h
    cases h
  | some callable =>
    rw [hc] at h
    dsimp only at h
    cases hr : s.choose callable (argumentsOf operands typed) with
    | error refusal =>
      rw [hr] at h
      cases h
    | ok choice =>
      rw [hr] at h
      exact ⟨callable, choice, rfl, hr, (Except.ok.inj h).symm⟩

theorem bind_call_ok {sort : CallSort} {tree : Tree} {operands : List Term}
    (h : s.bind (.call sort tree operands) = .ok b) :
    ∃ callable typed choice, s.Binds sort tree operands b callable typed choice := by
  rw [bind] at h
  cases ho : s.bindAll operands with
  | error faults =>
    rw [ho] at h
    cases h
  | ok typed =>
    rw [ho] at h
    dsimp only at h
    split at h
    · cases h
    · obtain ⟨callable, choice, hc, hr, hb⟩ := bindCall_ok h
      exact ⟨callable, typed, choice, bindAll_ok ho, hc, hr, hb⟩

/-- Only literals, variables and calls are bound. -/
theorem bind_ok_cases {term : Term} (h : s.bind term = .ok b) :
    (∃ t v, term = .literal t ∧ D.readLiteral t.text = some v ∧ b = ⟨.value v, D.kindOf v⟩) ∨
    (∃ t kind, term = .name t ∧ s.kindOf t.text = some kind ∧ b = ⟨.name t, kind⟩) ∨
    ∃ sort tree operands callable typed choice, term = .call sort tree operands ∧
      s.Binds sort tree operands b callable typed choice := by
  cases term with
  | literal t =>
    obtain ⟨v, hv, hb⟩ := bind_literal_ok h
    exact .inl ⟨t, v, rfl, hv, hb⟩
  | name t =>
    obtain ⟨kind, hk, hb⟩ := bind_name_ok h
    exact .inr (.inl ⟨t, kind, rfl, hk, hb⟩)
  | absent owner => simp [bind] at h
  | stray t => simp [bind] at h
  | alien t => simp [bind] at h
  | call sort tree operands =>
    obtain ⟨callable, typed, choice, hcall⟩ := bind_call_ok h
    exact .inr (.inr ⟨sort, tree, operands, callable, typed, choice, rfl, hcall⟩)

end Reckon.Typing
