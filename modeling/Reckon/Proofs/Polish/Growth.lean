import Reckon.Proofs.Polish.Language

/-!
# Growth of the working stack

What a step does to the working stack and to the tokens that wait, said once (`Polish.Grows`) for
tokens that make no juxtaposition and end no empty group.  What such steps preserve is then shown
case by case, without a look at the output.
-/

namespace Reckon

namespace Polish

variable {d : Dialect} {s s' : Polish} {t : Token}

/-- Where an operand is due, a placeholder takes its place. -/
theorem forestOf_filled (d : Dialect) (s : Polish) : forestOf (s.filled d) =
    if d.expectsOperand s.previous then .leaf .placeholder :: s.forest else s.forest := by
  unfold Polish.filled
  split
  · rw [forestOf_push, shift_placeholder, forest]
  · rfl

/-- The working stack and the waiting tokens behind a token: what starts an operand comes where one
is due, and before the others the operand is complete, or a placeholder is. -/
inductive Grows (d : Dialect) (s : Polish) (t : Token) : List Tree → List Token → Prop
  | operand (hk : t.kind.isOperand) (hdue : d.expectsOperand s.previous)
      (hends : ¬ d.expectsOperand (some t)) : Grows d s t (.leaf t :: s.forest) s.stack
  | opening (hk : t.kind = .opening) (hdue : d.expectsOperand s.previous)
      (hends : d.expectsOperand (some t)) : Grows d s t s.forest (t :: s.stack)
  | call (hk : t.kind = .call) (hdue : d.expectsOperand s.previous)
      (hends : d.expectsOperand (some t)) :
      Grows d s t (.leaf .placeholder :: s.forest) (t :: s.stack)
  | before (hk : t.kind = .unary) (hb : (d.rank t).standsBefore)
      (hdue : d.expectsOperand s.previous) (hends : d.expectsOperand (some t)) :
      Grows d s t (.leaf .placeholder :: s.forest) (t :: s.stack)
  | after {ops rest : List Token} (hk : t.kind = .unary) (hb : ¬ (d.rank t).standsBefore)
      (hs : s.stack = ops ++ rest) (hops : SplitsAt (yields d (d.rank t)) ops rest)
      (hends : ¬ d.expectsOperand (some t)) :
      Grows d s t (Tree.shift
        (Tree.shift (ops.foldl Tree.shift (forestOf (s.filled d))) .placeholder) t) rest
  | binary {ops rest : List Token} (hk : t.kind.isBinary) (hs : s.stack = ops ++ rest)
      (hops : SplitsAt (yields d (d.rank t)) ops rest) (hends : d.expectsOperand (some t)) :
      Grows d s t (ops.foldl Tree.shift (forestOf (s.filled d))) (t :: rest)
  | endGroup {ops rest : List Token} {o : Token} (hk : t.kind = .closing)
      (hs : s.stack = ops ++ o :: rest) (hops : ∀ o ∈ ops, waits o) (ho : o.kind = .opening)
      (hends : ¬ d.expectsOperand (some t)) :
      Grows d s t (ops.foldl Tree.shift (forestOf (s.filled d))) rest
  | endCall {ops rest : List Token} {f : Token} (hk : t.kind = .closing)
      (hs : s.stack = ops ++ f :: rest) (hops : ∀ o ∈ ops, waits o) (hf : f.kind = .call)
      (hends : ¬ d.expectsOperand (some t)) :
      Grows d s t (Tree.shift (ops.foldl Tree.shift (forestOf (s.filled d))) f) rest

theorem Step.grows (h : Step d s t s') (hm : meets d s.previous t = 0)
    (hempty : ¬ (s.previous.any (·.kind == .opening) ∧ t.kind = .closing)) :
    Grows d s t s'.forest s'.stack := by
  have hexpects := expectsOperand_some (d := d) t
  cases h with
  | operand hk =>
    obtain ⟨hstarts, hends⟩ := starts_of_isOperand (d := d) hk
    rw [forest, forestOf_push, shift_operand hk]
    exact .operand hk (expectsOperand_of_meets hstarts hm) (by simp [hexpects, hends])
  | opening hk =>
    obtain ⟨hstarts, hends⟩ := starts_of_opensGroup (d := d) (t := t) (by rw [hk]; rfl)
    exact .opening hk (expectsOperand_of_meets hstarts hm) (by simp [hexpects, hends])
  | call hk =>
    obtain ⟨hstarts, hends⟩ := starts_of_opensGroup (d := d) (t := t) (by rw [hk]; rfl)
    rw [forest, forestOf_push, shift_placeholder]
    exact .call hk (expectsOperand_of_meets hstarts hm) (by simp [hexpects, hends])
  | before hk hb =>
    rw [forest, forestOf_push, shift_placeholder]
    exact .before hk hb (expectsOperand_of_meets ((standsBefore_iff hk).mp hb) hm)
      (by rw [Dialect.expectsOperand, hk]; exact hb)
  | after hk hb hs hops =>
    rw [forest, forestOf_push, forestOf_push, forestOf_append]
    exact .after hk hb hs hops (by rw [Dialect.expectsOperand, hk]; exact hb)
  | binary hk hs hops =>
    have hends := (not_starts_of_isBinary (d := d) hk).2
    rw [forest, forestOf_append]
    exact .binary hk hs hops (by simp [hexpects, hends])
  | closing hk hs hops ho =>
    rename_i ops rest opener
    have hends : ¬ d.expectsOperand (some t) := by simp [Dialect.expectsOperand, hk]
    have hout : s.closedOff d = s.filled d := if_neg fun h' => hempty ⟨h', hk⟩
    rw [forest, forestOf_append, hout, List.foldl_append]
    by_cases hc : opener.kind = .call
    · rw [callOf, if_pos hc]
      exact .endCall hk hs hops hc hends
    · rw [callOf, if_neg hc]
      exact .endGroup hk hs hops (opening_of_opensGroup ho hc) hends

end Polish

end Reckon
