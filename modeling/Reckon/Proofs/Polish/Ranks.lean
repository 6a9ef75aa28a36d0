import Reckon.Proofs.Polish.Steps

/-!
# Ranks that are asked for

`Dialect.rank` is total: what is not declared ranks somewhere, too (`Dialect.rank_eq_getD`).
`Polish.Asks` says of which tokens a state needs the rank, and nothing else about ranks matters
(`Polish.push_congr`).  When every operator and separator among the tokens is declared, only ranks
that are declared are asked for (`Polish.Ranked.run`).
-/

namespace Reckon

variable {d d' : Dialect} {s s' : Polish} {t u : Token} {ts : List Token}

/-- The rank of a token as it is declared. -/
def Dialect.rank? (d : Dialect) (t : Token) : Option Rank :=
  match t.kind with
  | .operator => (d.operator? t.text).map fun op => ⟨op.priority.toInt, op.leftAssociative, false⟩
  | .separator => some ⟨d.separatorPriority, false, false⟩
  | .unary => (d.unary? t.text).map fun op =>
      ⟨op.priority.toInt, op.side == .after, op.side == .before⟩
  | _ => none

/-- The rank of what is not declared. -/
def Token.fallbackRank (t : Token) : Rank := ⟨0, true, t.kind == .unary⟩

theorem Dialect.rank_eq_getD (d : Dialect) (t : Token) :
    d.rank t = (d.rank? t).getD t.fallbackRank := by
  unfold rank rank? Token.fallbackRank
  cases hk : t.kind with
  | operator => cases h : d.operator? t.text <;> simp
  | unary => cases h : d.unary? t.text <;> simp
  | _ => rfl

/-- The tokens that have a rank of their own. -/
def TokenKind.isRanked (k : TokenKind) : Bool := k.isBinary || k == .unary

namespace Polish

/-- The rank of `t` is looked at when `next` is taken in, or when the expression ends. -/
inductive Asks (s : Polish) : Option Token → Token → Prop
  | next {t : Token} (hk : t.kind.isRanked) : Asks s (some t) t
  | previous {next : Option Token} {t : Token} (ht : s.previous = some t) (hk : t.kind = .unary) :
      Asks s next t
  | waiting {next : Option Token} {t : Token} (ht : t ∈ s.stack) (hk : ¬ t.kind.opensGroup) :
      Asks s next t

/-! ## Nothing else matters -/

theorem popOutranked_congr {stack : List Token}
    (h : ∀ u ∈ stack, ¬ u.kind.opensGroup → d'.rank u = d.rank u) (current : Rank)
    (output : Array Token) :
    popOutranked d' current output stack = popOutranked d current output stack := by
  induction stack generalizing output with
  | nil => rfl
  | cons top stack ih =>
    obtain ⟨htop, h⟩ := List.forall_mem_cons.mp h
    rw [popOutranked, popOutranked]
    by_cases hg : top.kind.opensGroup
    · rw [if_pos hg, if_pos hg]
    · rw [if_neg hg, if_neg hg, htop hg, ih h]

theorem popGroup_congr (h : d'.opening = d.opening) (close : Token) (output : Array Token)
    (stack : List Token) : popGroup d' close output stack = popGroup d close output stack := by
  induction stack generalizing output with
  | nil => rw [popGroup, popGroup, h]
  | cons top stack ih =>
    rw [popGroup, popGroup]
    split
    · rfl
    · rfl
    · exact ih _

theorem popAll_congr (h : d'.closing = d.closing) (output : Array Token) (stack : List Token) :
    popAll d' output stack = popAll d output stack := by
  induction stack generalizing output with
  | nil => rfl
  | cons top stack ih =>
    rw [popAll, popAll]
    split
    · rw [h]
    · rw [h]
    · exact ih _

theorem filled_congr {next : Option Token} (h : ∀ u, s.Asks next u → d'.rank u = d.rank u) :
    s.filled d' = s.filled d := by
  have hexpects : d'.expectsOperand s.previous = d.expectsOperand s.previous := by
    cases hprevious : s.previous with
    | none => rfl
    | some previous =>
      cases hk : previous.kind with
      | unary => simp only [Dialect.expectsOperand, hk, h previous (.previous hprevious hk)]
      | _ => simp only [Dialect.expectsOperand, hk]
  rw [filled, filled, hexpects]

/-- What taking in a token does depends on no other rank than those that are asked for. -/
theorem push_congr (hopening : d'.opening = d.opening)
    (h : ∀ u, s.Asks (some t) u → d'.rank u = d.rank u) : push d' s t = push d s t := by
  have hfilled : s.filled d' = s.filled d := filled_congr h
  have hpop : ∀ current output,
      popOutranked d' current output s.stack = popOutranked d current output s.stack :=
    popOutranked_congr fun u hu hk => h u (.waiting hu hk)
  have hrank : t.kind.isRanked → d'.rank t = d.rank t := fun hk => h t (.next hk)
  unfold push
  cases hk : t.kind with
  | closing => simp only [hfilled, popGroup_congr hopening]
  | operator => simp only [hfilled, hpop, hrank (by rw [hk]; rfl)]
  | separator => simp only [hfilled, hpop, hrank (by rw [hk]; rfl)]
  | unary => simp only [hfilled, hpop, hrank (by rw [hk]; rfl)]
  | _ => rfl

theorem finish_congr (hclosing : d'.closing = d.closing)
    (h : ∀ u, s.Asks none u → d'.rank u = d.rank u) : s.finish d' = s.finish d := by
  rw [finish, finish, filled_congr h, popAll_congr hclosing]

/-! ## Declared ranks -/

/-- The tokens whose rank the state may ask for have one. -/
structure Ranked (d : Dialect) (s : Polish) : Prop where
  previous : ∀ u, s.previous = some u → u.kind.isRanked → (d.rank? u).isSome
  stack : ∀ u ∈ s.stack, ¬ u.kind.opensGroup → (d.rank? u).isSome

theorem ranked_start (d : Dialect) : Ranked d start := ⟨nofun, nofun⟩

theorem Ranked.step (h : s.Ranked d) (ht : t.kind.isRanked → (d.rank? t).isSome)
    (hstep : Step d s t s') : s'.Ranked d := by
  refine ⟨fun u hu => Option.some.inj (hstep.previous_eq.symm.trans hu) ▸ ht, ?_⟩
  have hstack := h.stack
  have hpush : ∀ {rest : List Token}, (∀ u ∈ rest, ¬ u.kind.opensGroup → (d.rank? u).isSome) →
      t.kind.opensGroup ∨ t.kind.isRanked →
      ∀ u ∈ t :: rest, ¬ u.kind.opensGroup → (d.rank? u).isSome :=
    fun hrest hk => List.forall_mem_cons.mpr ⟨fun hg => ht (hk.resolve_left hg), hrest⟩
  cases hstep with
  | operand hk => exact hstack
  | opening hk => exact hpush hstack (.inl (by rw [hk]; rfl))
  | call hk => exact hpush hstack (.inl (by rw [hk]; rfl))
  | before hk hb => exact hpush hstack (.inr (by rw [hk]; rfl))
  | after hk hb hs hops =>
    rw [hs, List.forall_mem_append] at hstack
    exact hstack.2
  | binary hk hs hops =>
    rw [hs, List.forall_mem_append] at hstack
    exact hpush hstack.2 (.inr (by rw [TokenKind.isRanked, hk, Bool.true_or]))
  | closing hk hs hops ho =>
    rw [hs, List.forall_mem_append, List.forall_mem_cons] at hstack
    exact hstack.2.2

theorem Ranked.run (h : s.Ranked d) (hts : ∀ t ∈ ts, t.kind.isRanked → (d.rank? t).isSome)
    (hrun : run d s ts = .ok s') : s'.Ranked d := by
  induction ts generalizing s with
  | nil => exact Except.ok.inj hrun ▸ h
  | cons t ts ih =>
    obtain ⟨ht, hts⟩ := List.forall_mem_cons.mp hts
    obtain ⟨s₁, hstep, hrun⟩ := step_of_run_cons hrun
    exact ih (h.step ht hstep) hts hrun

theorem Ranked.of_asks {next : Option Token} (h : s.Ranked d)
    (hnext : ∀ t ∈ next, t.kind.isRanked → (d.rank? t).isSome) (hasks : s.Asks next u) :
    (d.rank? u).isSome := by
  cases hasks with
  | next hk => exact hnext u rfl hk
  | previous hu hk => exact h.previous u hu (by rw [hk]; rfl)
  | waiting hu hk => exact h.stack u hu hk

/-- Tokens with declared ranks come out in the same order whatever else is declared. -/
theorem ofTokens_congr (hts : ∀ t ∈ ts, t.kind.isRanked → (d.rank? t).isSome)
    (hopening : d'.opening = d.opening) (hclosing : d'.closing = d.closing)
    (hranks : ∀ t rank, d.rank? t = some rank → d'.rank t = rank) :
    ofTokens d' ts = ofTokens d ts := by
  have hdeclared : ∀ {u : Token}, (d.rank? u).isSome → d'.rank u = d.rank u := by
    intro u hu
    obtain ⟨rank, hrank⟩ := Option.isSome_iff_exists.mp hu
    rw [hranks u rank hrank, d.rank_eq_getD, hrank, Option.getD_some]
  have hrun : ∀ (ts : List Token) (s : Polish), s.Ranked d →
      (∀ t ∈ ts, t.kind.isRanked → (d.rank? t).isSome) → run d' s ts = run d s ts := by
    intro ts
    induction ts with
    | nil => exact fun _ _ _ => rfl
    | cons t ts ih =>
      intro s hs hts
      obtain ⟨ht, hts⟩ := List.forall_mem_cons.mp hts
      have hpush : push d' s t = push d s t := push_congr hopening fun u hu =>
        hdeclared (hs.of_asks (fun t' ht' => Option.some.inj ht' ▸ ht) hu)
      rw [run_cons, run_cons, hpush]
      cases hstep : push d s t with
      | error f => rfl
      | ok s₁ => exact ih s₁ (hs.step ht (step_of_push hstep)) hts
  rw [ofTokens_eq_ending, ofTokens_eq_ending, ending, ending, hrun ts start (ranked_start d) hts]
  cases hend : run d start ts with
  | error f => rfl
  | ok s =>
    have hfinish : s.finish d' = s.finish d := finish_congr hclosing fun u hu =>
      hdeclared (((ranked_start d).run hts hend).of_asks (by simp) hu)
    simp only [Except.bind, hfinish]

end Polish

end Reckon
