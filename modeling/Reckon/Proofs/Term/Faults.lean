import Reckon.Proofs.Check.Diagnostics
import Reckon.Term.Typing

/-!
# The faults of typing

Typing tells each fault with the code of its sort.  The faults of a term are those of its operands,
from left to right, and then its own (`Typing.faults_bindAll`, `Typing.faults_bind_call`).
-/

namespace Reckon

/-! ## Codes -/

theorem Refusal.code_diagnostic (r : Refusal) (site : Option Span) :
    (r.diagnostic site).code = some r.code := by
  unfold diagnostic
  cases r.help? <;> simp

theorem Refusal.isError_diagnostic (r : Refusal) (site : Option Span) :
    (r.diagnostic site).isError := by
  unfold diagnostic
  cases r.help? <;> simp

theorem Refusal.code_eq_noMatchingOverload_iff {r : Refusal} :
    r.code = .noMatchingOverload ↔ r.isNoMatch := by
  cases r <;> simp [code, isNoMatch]

namespace TypeFault

variable {f : TypeFault}

/-- The code that a fault is told with. -/
def code : TypeFault → Option Code
  | invalidLiteral _ => some .invalidLiteral
  | unbound _ => some .unboundVariable
  | missingOperand _ => some .missingOperandAtEvaluation
  | orphanSeparator _ => some .orphanSeparator
  | alien _ => none
  | undeclared .. => some .undeclaredCallable
  | refused refusal _ => some refusal.code

theorem code_diagnostic (f : TypeFault) : f.diagnostic.code = f.code := by
  cases f with
  | refused refusal site => exact refusal.code_diagnostic site
  | _ => simp [diagnostic, unboundDiagnostic, code, Diagnostic.plain]

theorem isError_diagnostic (f : TypeFault) : f.diagnostic.isError := by
  cases f with
  | refused refusal site => exact refusal.isError_diagnostic site
  | alien t =>
    rw [diagnostic, Diagnostic.isError_pointing]
    rfl
  | _ => simp [diagnostic, unboundDiagnostic]

/-- The fault of a call that no overload takes. -/
def isNoMatch : TypeFault → Bool
  | refused refusal _ => refusal.isNoMatch
  | _ => false

theorem code_eq_noMatchingOverload_iff :
    f.diagnostic.code = some .noMatchingOverload ↔ f.isNoMatch := by
  rw [code_diagnostic]
  cases f with
  | refused refusal site => simp [code, isNoMatch, Refusal.code_eq_noMatchingOverload_iff]
  | _ => simp [code, isNoMatch]

theorem code_eq_missingOperandAtEvaluation_iff :
    f.diagnostic.code = some .missingOperandAtEvaluation ↔ ∃ owner, f = .missingOperand owner := by
  rw [code_diagnostic]
  cases f with
  | refused refusal site => cases refusal <;> simp [code, Refusal.code]
  | _ => simp [code]

end TypeFault

/-! ## Faults -/

namespace Typing

variable {D : Domain} {s : Typing D} {α : Type}

/-- The faults that a result tells. -/
def faults : Except (List TypeFault) α → List TypeFault
  | .ok _ => []
  | .error faults => faults

theorem faults_bindAll_cons (s : Typing D) (t : Term) (ts : List Term) :
    faults (s.bindAll (t :: ts)) = faults (s.bind t) ++ faults (s.bindAll ts) := by
  rw [bindAll]
  cases s.bind t with
  | ok typed => cases s.bindAll ts <;> rfl
  | error faults =>
    cases s.bindAll ts with
    | ok more => exact (List.append_nil faults).symm
    | error more => rfl

theorem faults_bindAll (s : Typing D) (ts : List Term) :
    faults (s.bindAll ts) = ts.flatMap fun t => faults (s.bind t) := by
  induction ts with
  | nil => rfl
  | cons t ts ih => rw [faults_bindAll_cons, ih, List.flatMap_cons]

/-- The faults of a call that are not those of its operands: an operand is missing, or, if nothing
is wrong with the operands, the call is refused. -/
def ownFaults (s : Typing D) (sort : CallSort) (tree : Tree) (operands : List Term) :
    List TypeFault :=
  if operands.length < sort.wanted operands.length then [.missingOperand (some tree.token)]
  else
    match s.bindAll operands with
    | .ok typed => faults (s.bindCall sort tree operands typed)
    | .error _ => []

theorem faults_bind_call (s : Typing D) (sort : CallSort) (tree : Tree) (operands : List Term) :
    faults (s.bind (.call sort tree operands)) =
      faults (s.bindAll operands) ++ s.ownFaults sort tree operands := by
  rw [bind, ownFaults]
  cases hops : s.bindAll operands with
  | ok typed =>
    dsimp only
    split
    · rfl
    · rfl
  | error fs =>
    dsimp only
    split
    · rfl
    · exact (List.append_nil fs).symm

/-- A call is refused because its name is not declared or because resolution refuses it. -/
theorem mem_faults_bindCall {sort : CallSort} {tree : Tree} {operands : List Term}
    {typed : List (Typed D)} {f : TypeFault}
    (h : f ∈ faults (s.bindCall sort tree operands typed)) :
    f = .undeclared sort tree.token ∨ ∃ refusal, f = .refused refusal tree.token.span := by
  unfold bindCall at h
  cases hc : s.catalog.callable? sort tree.token.text with
  | none =>
    rw [hc] at h
    exact .inl (List.mem_singleton.mp h)
  | some c =>
    rw [hc] at h
    dsimp only at h
    cases hr : s.choose c (argumentsOf operands typed) with
    | error refusal =>
      rw [hr] at h
      exact .inr ⟨refusal, List.mem_singleton.mp h⟩
    | ok choice =>
      rw [hr] at h
      cases h

end Typing

end Reckon
