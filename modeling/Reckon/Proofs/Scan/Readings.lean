import Mathlib
import Reckon.Proofs.Polish.Steps
import Reckon.Proofs.Scan.Tokens
import Reckon.Proofs.Standard

/-!
# How operators are read

Reading operators a second time changes nothing: the token before an operator has been read by then,
and it makes no difference how the one behind is read.  In the tokens of a text, an operator that
may stand before its operand is read so exactly where the conversion is due an operand
(`readings_agree`).
-/

namespace Reckon.Dialect

variable {d : Dialect} {previous next next' : Option Token} {t u : Token} {op : UnaryOperator}
variable {ts us front back : List Token}

/-! ## Reading twice -/

theorem text_readOperator (previous : Option Token) (t : Token) (next : Option Token) :
    (d.readOperator previous t next).text = t.text := by
  rcases d.readOperator_cases previous t next with h | ⟨-, h⟩ <;> rw [h]

theorem readOperator_congr (h : allowsAfter next' = allowsAfter next) (previous : Option Token)
    (t : Token) : d.readOperator previous t next' = d.readOperator previous t next := by
  unfold readOperator
  rw [h]

theorem readOperator_readOperator (h : allowsAfter next' = allowsAfter next)
    (previous : Option Token) (t : Token) :
    d.readOperator previous (d.readOperator previous t next) next' =
      d.readOperator previous t next := by
  rcases d.readOperator_cases previous t next with ht | ⟨-, ht⟩
  · rw [ht, readOperator_congr h, ht]
  · rw [ht]
    exact readOperator_of_ne (by simp) previous next'

/-- What stands before the first of some tokens does not depend on how they are read. -/
theorem allowsAfter_head?_readOperators (d : Dialect) (previous : Option Token) (ts : List Token) :
    allowsAfter (d.readOperators previous ts).head? = allowsAfter ts.head? := by
  cases ts with
  | nil => rfl
  | cons t ts =>
    show allowsAfter (some (d.readOperator previous t ts.head?)) = allowsAfter (some t)
    rcases d.readOperator_cases previous t ts.head? with h | ⟨hk, h⟩
    · rw [h]
    · rw [h]
      simp [allowsAfter, hk]

theorem readOperators_readOperators (d : Dialect) (previous : Option Token) (ts : List Token) :
    d.readOperators previous (d.readOperators previous ts) = d.readOperators previous ts := by
  induction ts generalizing previous with
  | nil => rfl
  | cons t ts ih =>
    have hnext := d.allowsAfter_head?_readOperators (some (d.readOperator previous t ts.head?)) ts
    show d.readOperators previous (d.readOperator previous t ts.head? ::
      d.readOperators (some (d.readOperator previous t ts.head?)) ts) = _
    rw [readOperators, readOperator_readOperator hnext, ih]
    rfl

theorem forall₂_readOperators (d : Dialect) (previous : Option Token) (ts : List Token) :
    List.Forall₂ (fun t u => u = t ∨ t.kind = .operator ∧ (d.unary? t.text).isSome ∧
      u = { t with kind := .unary }) ts (d.readOperators previous ts) := by
  induction ts generalizing previous with
  | nil => exact .nil
  | cons t ts ih => exact .cons (readOperator_changes previous t ts.head?) (ih _)

/-! ## Places in a text -/

/-- Every token is read behind the one before it as that one has been read. -/
theorem exists_of_readOperators (h : d.readOperators previous us = front ++ t :: back) :
    ∃ u ∈ us, ∃ next, t = d.readOperator (front.getLast?.or previous) u next := by
  induction front generalizing previous us with
  | nil =>
    cases us with
    | nil => cases h
    | cons u us => exact ⟨u, List.mem_cons_self, us.head?, (List.cons.inj h).1.symm⟩
  | cons f front ih =>
    cases us with
    | nil => cases h
    | cons u us =>
      obtain ⟨hf, hrest⟩ := List.cons.inj h
      obtain ⟨v, hv, next, ht⟩ := ih hrest
      refine ⟨v, List.mem_cons_of_mem u hv, next, ?_⟩
      rw [ht, hf, List.getLast?_cons]
      cases front.getLast? <;> rfl

/-- A symbol that is also a binary operator is not found as a unary one. -/
theorem operator?_of_mem_claims {text : List Char} {c : Claim} (hc : c ∈ d.claims text)
    (hk : c.token.kind = .unary) : d.operator? c.token.text = none := by
  have hother : ∀ kind, c.token.kind = kind → kind ≠ .unary → d.operator? c.token.text = none :=
    fun kind h hne => absurd (h.symm.trans hk) hne
  rcases mem_claims hc with hc | hc | hc | hc | hc | ⟨⟨symbol, kind⟩, hs, hc⟩
  · exact hother _ (kind_of_mem_callClaims hc) (by decide)
  · exact hother _ (kind_of_mem_literalClaims hc) (by decide)
  · exact hother _ (kind_of_mem_identifierClaims hc) (by decide)
  · rcases kind_of_mem_parenClaims hc with h | h <;> exact hother _ h (by decide)
  · exact hother _ (kind_of_mem_ofOccurrences hc) (by decide)
  · obtain ⟨offset, -, rfl⟩ := List.mem_map.mp hc
    have hkind : kind = .unary := hk
    rcases mem_operatorSymbols_iff.mp hs with ⟨hoperator, -⟩ | ⟨-, -, hnone⟩
    · cases hkind.symm.trans hoperator
    · exact hnone

/-- An operator may stand before its operand where the conversion is due one. -/
theorem allowsBefore_eq_expectsOperand (h : ∀ t ∈ previous, d.Declares t) :
    d.allowsBefore previous = d.expectsOperand previous := by
  cases previous with
  | none => rfl
  | some t =>
    unfold allowsBefore expectsOperand
    cases hk : t.kind with
    | unary =>
      obtain ⟨op, hop⟩ := Option.isSome_iff_exists.mp ((h t rfl).2 hk)
      simp [rank, hk, hop]
    | _ => simp only [hk]

/-- Where a sign of a text is read as a unary operator. -/
theorem unary_iff_expectsOperand {source : String} (h : d.tokens source = front ++ t :: back)
    (hk : t.kind = .operator ∨ t.kind = .unary) (hbinary : (d.operator? t.text).isSome)
    (hu : d.unary? t.text = some op) (hs : op.side = .before) :
    t.kind = .unary ↔ d.expectsOperand front.getLast? := by
  have hdeclares : ∀ u ∈ front.getLast?, d.Declares u := by
    intro u hu
    have hmem : u ∈ d.tokens source := by
      rw [h]
      exact List.mem_append_left _ (List.mem_of_mem_getLast? hu)
    exact declares_of_mem_tokens hmem
  rw [← allowsBefore_eq_expectsOperand hdeclares]
  obtain ⟨u, hmem, next, rfl⟩ := exists_of_readOperators h
  obtain ⟨c, hc, rfl⟩ := List.mem_map.mp (List.mem_mergeSort.mp hmem)
  rw [text_readOperator] at hbinary hu
  rw [Option.or_none] at hk ⊢
  have hoperator : c.token.kind = .operator := by
    by_contra hne
    rw [readOperator_of_ne hne] at hk
    rw [operator?_of_mem_claims hc (hk.resolve_left hne)] at hbinary
    cases hbinary
  rw [readOperator_of_before hoperator hu hs]
  by_cases hallows : d.allowsBefore front.getLast?
  · simp [hallows]
  · simp [hallows, hoperator]

/-- **The scan and the conversion agree on what is unary.**  Reading operators changes the kind of
operators that are declared as unary ones, and nothing else; a second reading changes nothing.  In
the tokens of a text, a sign that is also a binary operator is read as unary exactly where the
conversion is due an operand.  So as a binary one it never gets a placeholder before it. -/
theorem readings_agree (d : Dialect) :
    (∀ ts, List.Forall₂ (fun t u => u = t ∨ t.kind = .operator ∧ (d.unary? t.text).isSome ∧
        u = { t with kind := .unary }) ts (d.readOperators none ts) ∧
      d.readOperators none (d.readOperators none ts) = d.readOperators none ts) ∧
    ∀ source front t back s, d.tokens source = front ++ t :: back →
      Polish.run d .start front = .ok s → t.kind = .operator ∨ t.kind = .unary →
      (d.operator? t.text).isSome → (∃ op, d.unary? t.text = some op ∧ op.side = .before) →
      (t.kind = .unary ↔ d.expectsOperand s.previous) ∧
      (t.kind = .operator → Polish.push d s t =
        .ok ⟨(Polish.popOutranked d (d.rank t) s.output s.stack).1,
          t :: (Polish.popOutranked d (d.rank t) s.output s.stack).2, some t⟩) := by
  refine ⟨fun ts => ⟨d.forall₂_readOperators none ts, d.readOperators_readOperators none ts⟩, ?_⟩
  rintro source front t back s h hrun hk hbinary ⟨op, hu, hs⟩
  have hprevious : s.previous = front.getLast? := by
    rw [Polish.previous_of_run hrun]
    exact Option.or_none
  have hiff := unary_iff_expectsOperand h hk hbinary hu hs
  rw [← hprevious] at hiff
  refine ⟨hiff, fun hoperator => ?_⟩
  have hfilled : s.filled d = s.output := by
    apply if_neg
    rw [← hiff, hoperator]
    decide
  unfold Polish.push
  rw [hoperator]
  dsimp only
  rw [hfilled]

set_option maxRecDepth 4096 in
/-- Of three signs in a row behind an operand the first is binary and the second is unary. -/
theorem readings_agree_of_signs : ∃ front first second back s s',
    standard.tokens "a!--+b" = front ++ first :: second :: back ∧
      first.kind = .operator ∧ second.kind = .unary ∧
      Polish.run standard .start front = .ok s ∧ Polish.push standard s first = .ok s' ∧
      s'.output = s.output ∧ standard.expectsOperand s'.previous := by
  let first : Token := ⟨.operator, "-", some 2⟩
  let second : Token := ⟨.unary, "-", some 3⟩
  let front : List Token := [⟨.identifier, "a", some 0⟩, ⟨.unary, "!", some 1⟩]
  let back : List Token := [⟨.unary, "+", some 4⟩, ⟨.identifier, "b", some 5⟩]
  have htokens : standard.tokens "a!--+b" = front ++ first :: second :: back := by cbv
  have hsign : ∃ op, standard.unary? "-" = some op ∧ op.side = .before := ⟨_, rfl, rfl⟩
  obtain ⟨s, hs⟩ : ∃ s, Polish.run standard .start front = .ok s := ⟨_, rfl⟩
  obtain ⟨-, hpush⟩ := (readings_agree standard).2 _ _ _ _ s htokens hs (.inl rfl) rfl hsign
  obtain ⟨s', hs'⟩ : ∃ s', Polish.run standard .start (front ++ [first]) = .ok s' := ⟨_, rfl⟩
  have htokens' : standard.tokens "a!--+b" = (front ++ [first]) ++ second :: back := htokens
  obtain ⟨hdue, -⟩ := (readings_agree standard).2 _ _ _ _ s' htokens' hs' (.inr rfl) rfl hsign
  cases hs
  cases hs'
  exact ⟨front, first, second, back, _, _, htokens, rfl, rfl, rfl, hpush rfl, rfl, hdue.mp rfl⟩

end Reckon.Dialect
