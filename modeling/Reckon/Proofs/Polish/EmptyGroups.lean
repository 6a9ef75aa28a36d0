import Reckon.Proofs.Polish.Language

/-!
# Empty groups

An empty group brings no operand, but what comes behind it is read as if there were one.  So it
matters only where an operand is due and does not come behind the group either.  Everywhere else the
conversion is the same without it (`ofTokens_dropEmptyGroups`).  A group that holds empty groups and
nothing else is read like one empty group.
-/

namespace Reckon

/-- The token opens a group, and the tokens behind it begin with the end of the group. -/
def OpensOnto (t : Token) (behind : List Token) : Prop :=
  t.kind = .opening ∧ behind.head?.any (·.kind == .closing)

instance (t : Token) (behind : List Token) : Decidable (OpensOnto t behind) :=
  inferInstanceAs (Decidable (_ ∧ _))

/-- The tokens without empty groups.  Those behind a parenthesis are left out first, so a group that
holds nothing else is empty too. -/
def dropEmptyGroups : List Token → List Token
  | [] => []
  | t :: ts =>
    if OpensOnto t (dropEmptyGroups ts) then (dropEmptyGroups ts).tail else t :: dropEmptyGroups ts

/-- Between these tokens an empty group takes the place of no operand: none is due, or one comes
next, or the two enclose it, and it is part of an empty group itself. -/
def Dialect.sparesBetween (d : Dialect) (previous next : Option Token) : Bool :=
  !d.expectsOperand previous || next.any d.startsOperand ||
    previous.any (·.kind == .opening) && next.any (·.kind == .closing)

/-- No empty group takes the place of an operand: where the token before it expects one, it still
comes behind it. -/
def Dialect.sparesEmptyGroups (d : Dialect) (previous : Option Token) : List Token → Bool
  | [] => true
  | t :: ts =>
    (!decide (OpensOnto t (dropEmptyGroups ts)) ||
      d.sparesBetween previous (dropEmptyGroups (t :: ts)).head?) &&
      d.sparesEmptyGroups (some t) ts

variable {d : Dialect} {t : Token} {ts : List Token}

theorem OpensOnto.exists_cons {rest : List Token} (h : OpensOnto t rest) :
    ∃ c, c.kind = .closing ∧ rest = c :: rest.tail := by
  obtain ⟨-, hc⟩ := h
  cases rest with
  | nil => simp at hc
  | cons c rest => exact ⟨c, by simpa using hc, rfl⟩

/-- Behind the token that an empty group begins with comes the one that it ends with. -/
theorem dropEmptyGroups_of_opensOnto (h : OpensOnto t (dropEmptyGroups ts)) :
    ∃ c, c.kind = .closing ∧ dropEmptyGroups ts = c :: dropEmptyGroups (t :: ts) := by
  rw [dropEmptyGroups, if_pos h]
  exact h.exists_cons

theorem dropEmptyGroups_of_not (h : ¬ OpensOnto t (dropEmptyGroups ts)) :
    dropEmptyGroups (t :: ts) = t :: dropEmptyGroups ts := by
  rw [dropEmptyGroups, if_neg h]

theorem noEmptyGroup_dropEmptyGroups (ts : List Token) : NoEmptyGroup (dropEmptyGroups ts) := by
  induction ts with
  | nil => exact List.isChain_nil
  | cons t ts ih =>
    by_cases h : OpensOnto t (dropEmptyGroups ts)
    · obtain ⟨c, -, hts⟩ := dropEmptyGroups_of_opensOnto h
      rw [hts] at ih
      exact List.IsChain.of_cons ih
    · rw [dropEmptyGroups_of_not h]
      cases hts : dropEmptyGroups ts with
      | nil => exact List.isChain_singleton t
      | cons c rest =>
        rw [hts] at h ih
        exact List.IsChain.cons_cons (by simpa [OpensOnto] using h) ih

/-- Nothing is dropped across a token that is no bracket. -/
theorem dropEmptyGroups_append_cons (ho : t.kind ≠ .opening) (hc : t.kind ≠ .closing)
    (ts us : List Token) :
    dropEmptyGroups (ts ++ t :: us) = dropEmptyGroups ts ++ t :: dropEmptyGroups us := by
  induction ts with
  | nil => exact dropEmptyGroups_of_not fun h => ho h.1
  | cons u ts ih =>
    have hopens : OpensOnto u (dropEmptyGroups (ts ++ t :: us)) ↔
        OpensOnto u (dropEmptyGroups ts) := by
      rw [ih]
      cases dropEmptyGroups ts <;> simp [OpensOnto, hc]
    by_cases h : OpensOnto u (dropEmptyGroups ts)
    · obtain ⟨c, -, hts⟩ := dropEmptyGroups_of_opensOnto h
      rw [List.cons_append, dropEmptyGroups, if_pos (hopens.mpr h), ih, hts]
      rfl
    · rw [List.cons_append, dropEmptyGroups_of_not (mt hopens.mp h), dropEmptyGroups_of_not h, ih]
      rfl

/-- Empty groups do not count among those that are open. -/
theorem openFrom_dropEmptyGroups (opened ts : List Token) :
    openFrom opened (dropEmptyGroups ts) = openFrom opened ts := by
  induction ts generalizing opened with
  | nil => rfl
  | cons t ts ih =>
    by_cases h : OpensOnto t (dropEmptyGroups ts)
    · obtain ⟨c, hc, hts⟩ := dropEmptyGroups_of_opensOnto h
      have hopens : openFrom opened (t :: ts) = openFrom (t :: opened) ts := by
        simp [openFrom, h.1, TokenKind.opensGroup]
      rw [hopens, ← ih, hts]
      simp [openFrom, hc, TokenKind.opensGroup]
    · rw [dropEmptyGroups_of_not h]
      cases opened <;> simp only [openFrom, ih]

theorem dropEmptyGroups_sublist (ts : List Token) : (dropEmptyGroups ts).Sublist ts := by
  induction ts with
  | nil => exact .refl _
  | cons t ts ih =>
    by_cases h : OpensOnto t (dropEmptyGroups ts)
    · obtain ⟨c, -, hts⟩ := dropEmptyGroups_of_opensOnto h
      rw [hts] at ih
      exact (List.sublist_cons_self ..).trans (ih.cons t)
    · rw [dropEmptyGroups_of_not h]
      exact ih.cons_cons t

namespace Polish

variable {s s' : Polish}

/-- Two states that differ at most in the token taken in last: to one it is the end of an empty
group, which to the other one takes the place of no operand. -/
structure Twins (d : Dialect) (s s' : Polish) (next : Option Token) : Prop where
  output_eq : s.output = s'.output
  stack_eq : s.stack = s'.stack
  previous : s.previous = s'.previous ∨
    (∃ c, s.previous = some c ∧ c.kind = .closing) ∧ d.sparesBetween s'.previous next

theorem filled_of_closing {c : Token} (hp : s.previous = some c) (hk : c.kind = .closing) :
    s.filled d = s.output := by
  rw [Polish.filled, if_neg (by simp [hp, Dialect.expectsOperand, hk])]

theorem filled_congr_of_previous (hp : s.previous = s'.previous) (ho : s.output = s'.output) :
    s.filled d = s'.filled d := by
  rw [Polish.filled, Polish.filled, hp, ho]

theorem Twins.filled_eq {next : Option Token} (h : Twins d s s' next)
    (hn : ¬ next.any d.startsOperand) (hc : ¬ next.any (·.kind == .closing)) :
    s.filled d = s'.filled d := by
  rcases h.previous with hp | ⟨⟨c, hprevious, hk⟩, hspares⟩
  · exact filled_congr_of_previous hp h.output_eq
  · have hdue : ¬ d.expectsOperand s'.previous := by
      simpa [Dialect.sparesBetween, hn, hc] using hspares
    rw [filled_of_closing hprevious hk, h.output_eq, Polish.filled, if_neg hdue]

theorem Twins.closedOff_eq {next : Option Token} (h : Twins d s s' next)
    (hn : ¬ next.any d.startsOperand) : s.closedOff d = s'.closedOff d := by
  unfold closedOff
  rcases h.previous with hp | ⟨⟨c, hprevious, hk⟩, hspares⟩
  · rw [hp, h.output_eq, filled_congr_of_previous hp h.output_eq]
  · rw [if_neg (by simp [hprevious, hk]), filled_of_closing hprevious hk, h.output_eq]
    -- an opening parenthesis before the group encloses it, and is closed next
    by_cases ho : s'.previous.any (·.kind == .opening)
    · rw [if_pos ho]
    · have hdue : ¬ d.expectsOperand s'.previous := by
        simpa [Dialect.sparesBetween, hn, ho] using hspares
      rw [if_neg ho, Polish.filled, if_neg hdue]

/-- Twins take in the next token alike. -/
theorem Twins.push_eq (h : Twins d s s' (some t)) : push d s t = push d s' t := by
  have hfilled : ¬ d.startsOperand t → t.kind ≠ .closing → s.filled d = s'.filled d :=
    fun hs hc => h.filled_eq hs (by simpa using hc)
  cases hk : t.kind with
  | literal | identifier | missing | opening | call =>
    simp only [push, hk, h.output_eq, h.stack_eq]
  | operator | separator =>
    have hf := hfilled (by simp [Dialect.startsOperand, hk]) (by simp [hk])
    simp only [push, hk, hf, h.stack_eq]
  | unary =>
    by_cases hb : (d.rank t).standsBefore
    · simp only [push, hk, hb, h.output_eq, h.stack_eq, if_true]
    · have hf := hfilled (fun hs => hb ((standsBefore_iff hk).mpr hs)) (by simp [hk])
      simp only [push, hk, if_neg hb, hf, h.stack_eq]
  | closing =>
    have hc := h.closedOff_eq (by simp [Dialect.startsOperand, hk])
    unfold closedOff at hc
    simp only [push, hk, hc, h.stack_eq]

theorem Twins.finish_eq (h : Twins d s s' none) : s.finish d = s'.finish d := by
  unfold Polish.finish
  rw [h.filled_eq (by simp) (by simp), h.stack_eq, h.output_eq]
  rcases h.previous with hp | ⟨⟨c, hc, hk⟩, hspares⟩
  · rw [hp]
  · have hsome : s'.previous.isSome := by
      by_contra hnone
      rw [Option.not_isSome_iff_eq_none] at hnone
      simp [Dialect.sparesBetween, hnone, Dialect.expectsOperand] at hspares
    rw [if_pos (by simp [hc]), if_pos hsome]

/-- Twins come to the same end. -/
theorem Twins.ending_eq {ts : List Token} (h : Twins d s s' ts.head?) :
    ending d s ts = ending d s' ts := by
  cases ts with
  | nil => exact h.finish_eq
  | cons t ts => rw [ending, run_cons, h.push_eq, ending, run_cons]

theorem run_empty_group {o c : Token} (ho : o.kind = .opening) (hc : c.kind = .closing)
    (ts : List Token) : run d s (o :: c :: ts) = run d ⟨s.output, s.stack, some c⟩ ts := by
  have hclose : Step d ⟨s.output, o :: s.stack, some o⟩ c _ :=
    .closing hc (List.nil_append _).symm (by simp) (by simp [ho, TokenKind.opensGroup])
  rw [run_cons_of_step (.opening ho), run_cons_of_step hclose]
  simp [closedOff, callOf, ho]

/-- What comes to the same end behind a token does so with the token. -/
theorem ending_cons_congr {ts us : List Token}
    (h : ∀ s₁ : Polish, s₁.previous = some t → ending d s₁ ts = ending d s₁ us) :
    ending d s (t :: ts) = ending d s (t :: us) := by
  rw [ending, run_cons, ending, run_cons]
  cases hp : push d s t with
  | error f => rfl
  | ok s₁ => exact h s₁ (step_of_push hp).previous_eq

/-- An empty group that takes the place of no operand need not be taken in. -/
theorem ending_dropEmptyGroups {ts : List Token} (h : d.sparesEmptyGroups s.previous ts) :
    ending d s ts = ending d s (dropEmptyGroups ts) := by
  induction ts generalizing s with
  | nil => rfl
  | cons t ts ih =>
    rw [Dialect.sparesEmptyGroups, Bool.and_eq_true] at h
    rw [ending_cons_congr fun s₁ hs₁ => ih (hs₁ ▸ h.2)]
    by_cases hopens : OpensOnto t (dropEmptyGroups ts)
    · obtain ⟨c, hc, hts⟩ := dropEmptyGroups_of_opensOnto hopens
      have hspares : d.sparesBetween s.previous (dropEmptyGroups (t :: ts)).head? := by
        simpa [hopens] using h.1
      have htwins : Twins d ⟨s.output, s.stack, some c⟩ s (dropEmptyGroups (t :: ts)).head? :=
        ⟨rfl, rfl, .inr ⟨⟨c, rfl, hc⟩, hspares⟩⟩
      rw [hts, ending, run_empty_group hopens.1 hc]
      exact htwins.ending_eq
    · rw [dropEmptyGroups_of_not hopens]

/-- Empty groups that take the place of no operand can be left out. -/
theorem ofTokens_dropEmptyGroups {ts : List Token} (h : d.sparesEmptyGroups none ts) :
    ofTokens d (dropEmptyGroups ts) = ofTokens d ts := by
  rw [ofTokens_eq_ending, ofTokens_eq_ending, ← ending_dropEmptyGroups (s := start) h]

end Polish

/-- The stages of a text in which no empty group takes the place of an operand. -/
theorem parse_dropEmptyGroups {source : String} {p : Parsed} (h : d.parse source = .ok p)
    (hs : d.sparesEmptyGroups none p.tokens) :
    NoEmptyGroup (dropEmptyGroups p.tokens) ∧
      Polish.ofTokens d (dropEmptyGroups p.tokens) = .ok p.polish ∧
      Tree.ofPolish p.polish = .ok p.tree := by
  obtain ⟨-, hp, ht⟩ := parse_eq_ok h
  exact ⟨noEmptyGroup_dropEmptyGroups _, (Polish.ofTokens_dropEmptyGroups hs).trans hp, ht⟩

end Reckon
