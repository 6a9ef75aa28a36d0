import Reckon.Proofs.Polish.Operands
import Reckon.Proofs.RoundTrip.Reading
import Reckon.Proofs.RoundTrip.Trees

/-!
# Converting written expressions

The conversion takes in the tokens of an expression and leaves a tree on the working stack that
renders it.  Parentheses end every operand, so nothing of an operand waits behind it; only the
separators between arguments do.
-/

namespace Reckon

open Polish Climbing

variable {e l r : Expr} {es : List Expr} {ts us : List Token} {opener close token : Token}
  {pending : Option Token}

/-- The tokens are taken in as an operand whose tree renders the expression. -/
def Converts (e : Expr) (ts : List Token) : Prop :=
  ∀ (s : Polish) (rest : List Token), ∃ s' t,
    Follows .standard s (ts ++ rest) rest s' ∧ Lands .standard s s' t ∧ Renders e t

/-- The tokens are taken in as arguments; earlier separators may wait. -/
def ConvertsAll (es : List Expr) (ts : List Token) : Prop :=
  ∀ (s : Polish) (pending : Option Token) (rest : List Token), OnTop .standard s.stack pending →
    (∀ c ∈ pending, c.kind = .separator) → ∃ s' t,
      Follows .standard s (ts ++ rest) rest s' ∧ Reads .standard s s' t [] ∧ RendersAll es t

/-! ## Groups -/

theorem onTop_opener (s : Polish) (h : opener.kind.opensGroup) :
    OnTop .standard (opener :: s.stack) none := by
  simp [OnTop, h]

theorem converts_operand (hk : token.kind = .literal ∨ token.kind = .identifier)
    (htext : token.text = e.written) : Converts e [token] := by
  intro s rest
  have hop : token.kind.isOperand := by rcases hk with h | h <;> rw [h] <;> rfl
  exact ⟨_, _, .cons (.operand hop) (.refl _ _), lands_operand hop s, .operand hk htext⟩

theorem converts_binary {op : BinaryMark} (hl : Converts l ts) (hr : Converts r us)
    (hopen : opener.kind = .opening) (hclose : close.kind = .closing)
    (hk : token.kind = .operator) (htext : token.text = String.singleton op.char)
    (hbetween : Dialect.standard.isBetween token) :
    Converts (.binary op l r) (opener :: (ts ++ token :: (us ++ [close]))) := by
  intro s rest
  have hopens : opener.kind.opensGroup := by rw [hopen]; rfl
  have hjoint : Dialect.standard.isJoint token := by simp [Dialect.isJoint, hbetween]
  obtain ⟨s₁, tl, hf₁, hlands₁, htl⟩ :=
    hl ⟨s.output, opener :: s.stack, some opener⟩ (token :: (us ++ (close :: rest)))
  obtain ⟨output, hstep, hforest⟩ :=
    (hlands₁.reads (token :: rest)).step_between (onTop_opener s hopens) hbetween (by simp)
  obtain ⟨s₂, tr, hf₂, hlands₂, htr⟩ :=
    hr ⟨output, token :: opener :: s.stack, some token⟩ (close :: rest)
  have hjoin := (hlands₂.reads []).join hjoint rfl hforest rfl (by simp [Stops])
  obtain ⟨s', hend, hlands⟩ := hjoin.endGroup hopen hclose
  have hf := Follows.cons (.opening hopen)
    (hf₁.trans (.cons hstep (hf₂.trans (.cons hend (.refl _ rest)))))
  exact ⟨s', _, by simpa using hf, hlands, htl.binary htr hk htext⟩

theorem converts_negate (he : Converts e ts) (hopen : opener.kind = .opening)
    (hclose : close.kind = .closing) (htext : token.text = "-")
    (hbefore : Dialect.standard.isBefore token) :
    Converts (.negate e) (opener :: token :: (ts ++ [close])) := by
  intro s rest
  have hjoint : Dialect.standard.isJoint token := by simp [Dialect.isJoint, hbefore]
  let opened : Polish := ⟨s.output, opener :: s.stack, some opener⟩
  obtain ⟨hstep, hforest⟩ := step_before opened hbefore
  obtain ⟨s₁, t, hf, hlands, ht⟩ :=
    he ⟨opened.output.push .placeholder, token :: opened.stack, some token⟩ (close :: rest)
  have hjoin := (hlands.reads []).join hjoint rfl hforest rfl (by simp [Stops])
  obtain ⟨s', hend, hlands'⟩ := hjoin.endGroup hopen hclose
  have hf' := Follows.cons (.opening hopen)
    (.cons hstep (hf.trans (.cons hend (.refl _ rest))))
  exact ⟨s', _, by simpa using hf', hlands', ht.negate (Dialect.isBefore_kind hbefore).1 htext⟩

theorem converts_factorial (he : Converts e ts) (hopen : opener.kind = .opening)
    (hclose : close.kind = .closing) (htext : token.text = "!")
    (hafter : Dialect.standard.isAfter token) :
    Converts (.factorial e) (opener :: (ts ++ [token, close])) := by
  intro s rest
  have hopens : opener.kind.opensGroup := by rw [hopen]; rfl
  obtain ⟨s₁, t, hf, hlands, ht⟩ :=
    he ⟨s.output, opener :: s.stack, some opener⟩ (token :: close :: rest)
  obtain ⟨s₂, hstep, hlands₂⟩ :=
    (hlands.reads (token :: rest)).step_after (onTop_opener s hopens) hafter (by simp)
  obtain ⟨s', hend, hlands'⟩ := (hlands₂.reads []).endGroup hopen hclose
  have hf' := Follows.cons (.opening hopen)
    (hf.trans (.cons hstep (.cons hend (.refl _ rest))))
  exact ⟨s', _, by simpa using hf', hlands', ht.factorial (Dialect.isAfter_kind hafter).1 htext⟩

/-! ## Calls -/

theorem convertsAll_one (he : Converts e ts) : ConvertsAll [e] ts := by
  intro s pending rest htop hpending
  obtain ⟨s', t, hf, hlands, ht⟩ := he s rest
  exact ⟨s', t, hf, hlands.reads [], .one ht⟩

theorem convertsAll_more {e' : Expr} (he : Converts e ts) (hes : ConvertsAll (e' :: es) us)
    (hk : token.kind = .separator) (htext : token.text = ",") :
    ConvertsAll (e :: e' :: es) (ts ++ token :: us) := by
  intro s pending rest htop hpending
  have hbetween : Dialect.standard.isBetween token := by simp [Dialect.isBetween, hk]
  have hjoint : Dialect.standard.isJoint token := by simp [Dialect.isJoint, hbetween]
  have hnot : ¬ pending.any (Dialect.standard.outranks · token) := by
    cases pending with
    | none => simp
    | some c =>
      have hc := hpending c rfl
      simp [Dialect.outranks, Dialect.priorityOf, Dialect.groupsLeft, hc, hk]
  obtain ⟨s₁, tl, hf₁, hlands, htl⟩ := he s (token :: (us ++ rest))
  obtain ⟨output, hstep, hforest⟩ :=
    (hlands.reads (token :: rest)).step_between htop hbetween hnot
  have htop' : OnTop .standard (token :: s.stack) (some token) := ⟨hjoint, rfl⟩
  obtain ⟨s', tr, hf₂, hread, htr⟩ := hes ⟨output, token :: s.stack, some token⟩ (some token) rest
    htop' (by simpa using hk)
  have hf := hf₁.trans (.cons hstep hf₂)
  exact ⟨s', _, by simpa using hf, hread.join hjoint rfl hforest rfl (by simp [Stops]),
    RendersAll.more htl htr hk htext⟩

theorem converts_bareCall {f : Name} (hk : token.kind = .call)
    (htext : token.text = String.ofList f.chars) (hclose : close.kind = .closing) :
    Converts (.call f []) [token, close] := by
  intro s rest
  obtain ⟨s', hend, hlands⟩ := lands_bareCall s hk hclose
  exact ⟨s', _, .cons (.call hk) (.cons hend (.refl _ rest)), hlands, .bareCall hk htext⟩

theorem converts_call {f : Name} (hes : ConvertsAll es ts) (hk : token.kind = .call)
    (htext : token.text = String.ofList f.chars) (hclose : close.kind = .closing) :
    Converts (.call f es) (token :: (ts ++ [close])) := by
  intro s rest
  have hopens : token.kind.opensGroup := by rw [hk]; rfl
  obtain ⟨s₁, t, hf, hread, ht⟩ := hes ⟨s.output.push .placeholder, token :: s.stack, some token⟩
    none (close :: rest) (onTop_opener s hopens) (by simp)
  obtain ⟨s', hend, hlands⟩ := hread.endCall hk hclose
  have hf' := Follows.cons (.call hk) (hf.trans (.cons hend (.refl _ rest)))
  exact ⟨s', _, by simpa using hf', hlands, .call ht hk htext⟩

/-! ## Expressions -/

open Lexeme

theorem isBetween_binary (op : BinaryMark) (o : Nat) :
    Dialect.standard.isBetween ((mark (.binary op)).token o) := by
  have hop : (Dialect.standard.operator? (String.ofList [op.char])).isSome := by
    cases op <;> decide
  exact Bool.or_eq_true_iff.mpr (.inr hop)

theorem isBefore_sign (o : Nat) : Dialect.standard.isBefore ((mark .sign).token o) :=
  Bool.and_eq_true_iff.mpr ⟨rfl, congrArg (Option.any (·.side == .before)) unary?_sign⟩

theorem isAfter_factorial (o : Nat) : Dialect.standard.isAfter ((mark .factorial).token o) :=
  Bool.and_eq_true_iff.mpr ⟨rfl, congrArg (Option.any (·.side == .after)) unary?_factorial⟩

mutual

/-- The tokens of an expression are taken in as the expression. -/
theorem Expr.converts : ∀ (e : Expr) (o : Nat), Converts e (tokens o e.lexemes)
  | .number n, o => converts_operand (.inl rfl) rfl
  | .name n, o => converts_operand (.inr rfl) rfl
  | .binary op l r, o => by
    have hopen : ((mark .opening).token o).kind = .opening := rfl
    simp only [lexemes, tokens_cons, tokens_append, tokens_nil]
    exact converts_binary (l.converts _) (r.converts _) hopen rfl rfl String.singleton_eq_ofList.symm
      (isBetween_binary op _)
  | .negate e, o => by
    have hopen : ((mark .opening).token o).kind = .opening := rfl
    simp only [lexemes, tokens_cons, tokens_append, tokens_nil]
    exact converts_negate (e.converts _) hopen rfl rfl (isBefore_sign _)
  | .factorial e, o => by
    have hopen : ((mark .opening).token o).kind = .opening := rfl
    simp only [lexemes, tokens_cons, tokens_append, tokens_nil]
    exact converts_factorial (e.converts _) hopen rfl rfl (isAfter_factorial _)
  | .call f args, o => by
    have hargs := Expr.convertsAll args
    simp only [lexemes, tokens_cons, tokens_append, tokens_nil]
    cases args with
    | nil => exact converts_bareCall rfl rfl rfl
    | cons e es => exact converts_call (hargs (by simp) _) rfl rfl rfl

theorem Expr.convertsAll : ∀ es : List Expr, es ≠ [] → ∀ o : Nat,
    ConvertsAll es (tokens o (Expr.lexemesAll es))
  | [], hne, _ => absurd rfl hne
  | [e], _, o => convertsAll_one (e.converts o)
  | e :: e' :: es, _, o => by
    simp only [lexemesAll, tokens_cons, tokens_append]
    exact convertsAll_more (e.converts _) (Expr.convertsAll (e' :: es) (by simp) _) rfl rfl

end

end Reckon
