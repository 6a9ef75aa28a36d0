import Reckon.Proofs.Polish.EmptyGroups
import Reckon.Proofs.Polish.Root
import Reckon.Proofs.Polish.Tokens

/-!
# Frames

What has gone out before and what waits below do not matter to tokens that close only what they
open: above a base that yields to none of them the conversion runs as if it had just started
(`Polish.Above`).  So a group in parentheses acts as one operand (`Polish.ActsAsOperand`), and in
any place it can be exchanged for a single literal.
-/

namespace Reckon

variable {d : Dialect} {t x : Token} {ts us pre post mid : List Token}

namespace Polish

variable {s s' S : Polish} {out : Array Token} {base : List Token} {before : Option Token}

/-! ## Running above a base -/

/-- The state `S` is the state `s` with more that is out already, more that waits below, and the
token `before` in front of all that was taken in. -/
structure Above (d : Dialect) (out : Array Token) (base : List Token) (before : Option Token)
    (s S : Polish) : Prop where
  output_eq : S.output = out ++ s.output
  stack_eq : S.stack = s.stack ++ base
  previous_eq : S.previous = s.previous.or before
  bottom : s.previous = none → s.stack = []

/-- What is on top of the base does not go out for the token. -/
def Bars (d : Dialect) (base : List Token) (t : Token) : Prop :=
  t.kind.isBinary ∨ t.kind = .unary → ∀ o ∈ base.head?, ¬ yields d (d.rank t) o

theorem bars_nil : Bars d [] t := by simp [Bars]

theorem bars_of_opensGroup {o : Token} (ho : o.kind.opensGroup) : Bars d (o :: base) t := by
  rintro - o' ⟨⟩
  simp [yields, ho]

theorem SplitsAt.append {current : Rank} {ops rest : List Token}
    (h : SplitsAt (yields d current) ops rest)
    (hbase : ∀ o ∈ base.head?, ¬ yields d current o) :
    SplitsAt (yields d current) ops (rest ++ base) := by
  refine ⟨h.1, fun o ho => ?_⟩
  cases rest with
  | nil => exact hbase o ho
  | cons top rest => exact h.2 o ho

namespace Above

theorem filled_eq (h : Above d out base before s S) (hdue : d.expectsOperand before) :
    S.filled d = out ++ s.filled d := by
  have hprevious : d.expectsOperand S.previous = d.expectsOperand s.previous := by
    rw [h.previous_eq]
    cases s.previous with
    | none => exact hdue
    | some p => rfl
  unfold Polish.filled
  rw [hprevious, h.output_eq]
  split
  · rw [Array.append_push]
  · rfl

theorem closedOff_eq (h : Above d out base before s S) (hdue : d.expectsOperand before)
    (hs : s.stack ≠ []) : S.closedOff d = out ++ s.closedOff d := by
  have hprevious : S.previous = s.previous := by
    rw [h.previous_eq]
    cases hp : s.previous with
    | none => exact absurd (h.bottom hp) hs
    | some p => rfl
  unfold closedOff
  rw [hprevious, h.filled_eq hdue, h.output_eq]
  split <;> rfl

/-- A step above a base that does not yield is the step from the start. -/
theorem step (h : Above d out base before s S) (hdue : d.expectsOperand before)
    (hstep : Step d s t s') (hbars : Bars d base t) :
    ∃ S', Step d S t S' ∧ Above d out base before s' S' := by
  have hbottom : ∀ {stack : List Token}, some t = none → stack = [] := fun h => nomatch h
  cases hstep with
  | operand hk =>
    refine ⟨_, .operand hk, ?_, h.stack_eq, rfl, hbottom⟩
    rw [h.output_eq, Array.append_push]
  | opening hk =>
    exact ⟨_, .opening hk, h.output_eq, congrArg (t :: ·) h.stack_eq, rfl, hbottom⟩
  | call hk =>
    refine ⟨_, .call hk, ?_, congrArg (t :: ·) h.stack_eq, rfl, hbottom⟩
    rw [h.output_eq, Array.append_push]
  | before hk hb =>
    refine ⟨_, .before hk hb, ?_, congrArg (t :: ·) h.stack_eq, rfl, hbottom⟩
    rw [h.output_eq, Array.append_push]
  | @after ops rest hk hb hs hops =>
    have hstack : S.stack = ops ++ (rest ++ base) := by rw [h.stack_eq, hs, List.append_assoc]
    have hops' := SplitsAt.append hops (hbars (.inr hk))
    refine ⟨_, .after hk hb hstack hops', ?_, rfl, rfl, hbottom⟩
    simp only [h.filled_eq hdue, Array.append_push, Array.append_assoc]
  | @binary ops rest hk hs hops =>
    have hstack : S.stack = ops ++ (rest ++ base) := by rw [h.stack_eq, hs, List.append_assoc]
    have hops' := SplitsAt.append hops (hbars (.inl hk))
    refine ⟨_, .binary hk hstack hops', ?_, rfl, rfl, hbottom⟩
    rw [h.filled_eq hdue, Array.append_assoc]
  | @closing ops rest opener hk hs hops ho =>
    have hstack : S.stack = ops ++ opener :: (rest ++ base) := by
      rw [h.stack_eq, hs, List.append_assoc]
      rfl
    refine ⟨_, .closing hk hstack hops ho, ?_, rfl, rfl, hbottom⟩
    rw [h.closedOff_eq hdue (by simp [hs]), Array.append_assoc]

theorem run (h : Above d out base before s S) (hdue : d.expectsOperand before)
    (hrun : Polish.run d s ts = .ok s') (hbars : ∀ t ∈ ts, Bars d base t) :
    ∃ S', Polish.run d S ts = .ok S' ∧ Above d out base before s' S' := by
  induction ts generalizing s S with
  | nil =>
    cases hrun
    exact ⟨S, rfl, h⟩
  | cons t ts ih =>
    obtain ⟨ht, hts⟩ := List.forall_mem_cons.mp hbars
    obtain ⟨s₁, hstep, hrun₁⟩ := step_of_run_cons hrun
    obtain ⟨S₁, hstep', h₁⟩ := h.step hdue hstep ht
    obtain ⟨S', hrun', h'⟩ := ih h₁ hrun₁ hts
    exact ⟨S', by rw [run_cons_of_step hstep', hrun'], h'⟩

/-- What else is out already only comes before what goes out in the end. -/
theorem ending_eq (h : Above d out [] none s S) (hsome : s.previous.isSome) :
    ending d S ts = (ending d s ts).map (out ++ ·) := by
  induction ts generalizing s S with
  | nil =>
    have hprevious : S.previous = s.previous := by rw [h.previous_eq, Option.or_none]
    show S.finish d = (s.finish d).map (out ++ ·)
    rw [finish, finish, hprevious, if_pos hsome, if_pos hsome, h.filled_eq rfl, h.stack_eq,
      List.append_nil]
    rcases waits_or_exists_opener s.stack with hwaits | ⟨ops, opener, rest, hs, hops, ho⟩
    · rw [popAll_waiting hwaits, popAll_waiting hwaits, Array.append_assoc]
      rfl
    · rw [hs, popAll_unclosed hops ho, popAll_unclosed hops ho]
      rfl
  | cons t ts ih =>
    rcases step_or_stray d s t with ⟨s₁, hstep⟩ | ⟨hk, hs⟩
    · obtain ⟨S₁, hstep', h₁⟩ := h.step rfl hstep bars_nil
      rw [ending, ending, run_cons_of_step hstep, run_cons_of_step hstep']
      exact ih h₁ (by simp [hstep.previous_eq])
    · have hS : ∀ o ∈ S.stack, waits o := by
        rw [h.stack_eq, List.append_nil]
        exact hs
      rw [ending, ending, run_cons, run_cons, push_stray hk hs, push_stray hk hS]
      rfl

end Above

theorem above_start (out : Array Token) (base : List Token) (before : Option Token) :
    Above d out base before start ⟨out, base, before⟩ :=
  ⟨by simp [start], rfl, rfl, fun _ => rfl⟩

/-! ## Groups -/

/-- The state in which tokens end that close all they open. -/
structure Closes (d : Dialect) (ts : List Token) (s : Polish) : Prop where
  run_eq : run d start ts = .ok s
  waits : ∀ o ∈ s.stack, waits o

theorem exists_closes (d : Dialect) (h : openFrom [] ts = some []) : ∃ s, Closes d ts s := by
  have hrun := run_of_openFrom d start ts
  rw [show groups start.stack = [] from rfl, h] at hrun
  obtain ⟨s, hrun, hgroups⟩ := hrun
  exact ⟨s, hrun, groups_eq_nil_iff.mp hgroups⟩

/-- The token that expects an operand is on top of the stack. -/
theorem head?_stack_of_run (h : d.expectsOperand s.previous → s.stack.head? = s.previous)
    (hrun : run d s ts = .ok s') : d.expectsOperand s'.previous → s'.stack.head? = s'.previous := by
  induction ts generalizing s with
  | nil =>
    cases hrun
    exact h
  | cons t ts ih =>
    obtain ⟨s₁, hstep, hrun₁⟩ := step_of_run_cons hrun
    refine ih (fun he => ?_) hrun₁
    rw [hstep.previous_eq] at he ⊢
    exact hstep.head?_stack he

namespace Closes

/-- The last token is no opening parenthesis, since that one would wait. -/
theorem previous_ne (h : Closes d ts s) : ¬ s.previous.any (·.kind == .opening) := by
  intro hany
  obtain ⟨o, hp, hk⟩ : ∃ o, s.previous = some o ∧ o.kind = .opening := by
    simpa [Option.any_eq_true] using hany
  have htop := head?_stack_of_run (fun _ => rfl) h.run_eq
  rw [hp] at htop
  have hmem := List.mem_of_head? (htop (by simp [Dialect.expectsOperand, hk]))
  have hwaits := h.waits o hmem
  simp [Polish.waits, hk, TokenKind.opensGroup] at hwaits

theorem ofTokens_eq (h : Closes d ts s) : ofTokens d ts =
    .ok (((if s.previous.isSome then s.filled d else s.output) ++ s.stack.toArray).toList) := by
  rw [ofTokens_of_run_ok h.run_eq, finish, popAll_waiting h.waits]
  rfl

end Closes

/-- Wherever the tokens come, `mid` goes out for them, and behind them an operand is complete. -/
def ActsAsOperand (d : Dialect) (us mid : List Token) : Prop :=
  ∃ c : Token, c.kind = .closing ∧ ∀ s : Polish,
    run d s us = .ok ⟨s.output ++ mid.toArray, s.stack, some c⟩

/-- A group in parentheses acts as an operand: what is in it goes out as if it stood alone. -/
theorem Closes.group (h : Closes d ts s) {o c : Token} (ho : o.kind = .opening)
    (hc : c.kind = .closing) : ∃ mid, ofTokens d ts = .ok mid ∧
      ActsAsOperand d (o :: (ts ++ [c])) mid := by
  refine ⟨_, h.ofTokens_eq, c, hc, fun s₀ => ?_⟩
  have hopens : o.kind.opensGroup := by rw [ho]; rfl
  have hdue : d.expectsOperand (some o) := by simp [Dialect.expectsOperand, ho]
  obtain ⟨S, hrun, habove⟩ := (above_start s₀.output (o :: s₀.stack) (some o)).run hdue h.run_eq
    fun t _ => bars_of_opensGroup hopens
  have hoff : S.closedOff d =
      s₀.output ++ (if s.previous.isSome then s.filled d else s.output) := by
    unfold closedOff
    rw [habove.previous_eq]
    cases hp : s.previous with
    | none => simp [ho, habove.output_eq]
    | some p =>
      have hne := h.previous_ne
      rw [hp] at hne
      rw [Option.some_or, if_neg hne, habove.filled_eq hdue]
      rfl
  have hclose : Step d S c ⟨S.closedOff d ++ (s.stack ++ callOf o).toArray, s₀.stack, some c⟩ :=
    .closing hc habove.stack_eq h.waits hopens
  have hout : S.closedOff d ++ s.stack.toArray = s₀.output ++
      ((if s.previous.isSome then s.filled d else s.output) ++ s.stack.toArray).toList.toArray := by
    rw [hoff, Array.append_assoc]
  have hcall : callOf o = [] := by simp [callOf, ho]
  rw [run_cons_of_step (.opening ho), run_append_of_ok hrun, run_cons_of_step hclose, hcall,
    List.append_nil, hout]
  rfl

/-! ## Exchanging operands -/

/-- What is out already does not change what goes out behind it. -/
theorem ending_behind (out : Array Token) (stack : List Token) (x : Token) (post : List Token) :
    ending d ⟨out, stack, some x⟩ post =
      (ending d ⟨#[], stack, some x⟩ post).map (out ++ ·) := by
  have habove : Above d out [] none ⟨#[], stack, some x⟩ ⟨out, stack, some x⟩ :=
    ⟨by simp, by simp, rfl, fun h => nomatch h⟩
  exact habove.ending_eq rfl

theorem ending_literal (hx : x.kind = .literal) (s : Polish) (post : List Token) :
    ending d s (x :: post) =
      (ending d ⟨#[], s.stack, some x⟩ post).map (s.output.push x ++ ·) := by
  rw [ending, run_cons_of_step (.operand (by rw [hx]; rfl))]
  exact ending_behind _ _ _ _

/-- Behind any operand the end is that behind a literal. -/
theorem ActsAsOperand.ending_eq (h : ActsAsOperand d us mid) (hx : x.kind = .literal) (s : Polish)
    (post : List Token) : ending d s (us ++ post) =
      (ending d ⟨#[], s.stack, some x⟩ post).map (s.output ++ mid.toArray ++ ·) := by
  obtain ⟨c, hc, hrun⟩ := h
  have htwins : Twins d ⟨s.output ++ mid.toArray, s.stack, some c⟩
      ⟨s.output ++ mid.toArray, s.stack, some x⟩ post.head? :=
    ⟨rfl, rfl, .inr ⟨⟨c, rfl, hc⟩, by simp [Dialect.sparesBetween, Dialect.expectsOperand, hx]⟩⟩
  rw [ending_append_of_ok (hrun s), htwins.ending_eq, ending_behind]

/-- In the place of a literal an operand does what the literal does: the conversion fails with the
same fault, or the output differs in that place alone. -/
theorem ActsAsOperand.exchange (h : ActsAsOperand d us mid) (hx : x.kind = .literal)
    (hpre : x ∉ pre) (hpost : x ∉ post) :
    (∃ f, ofTokens d (pre ++ us ++ post) = .error f ∧ ofTokens d (pre ++ x :: post) = .error f) ∨
      ∃ front back, x ∉ front ∧ x ∉ back ∧
        ofTokens d (pre ++ us ++ post) = .ok (front ++ mid ++ back) ∧
        ofTokens d (pre ++ x :: post) = .ok (front ++ x :: back) := by
  have hother : ∀ {ts : List Token}, x ∉ ts → ∀ t ∈ ts, t ≠ x := fun hts t ht he => hts (he ▸ ht)
  have hplaceholder : Token.placeholder ≠ x := by
    rintro rfl
    cases hx
  rw [ofTokens_eq_ending, ofTokens_eq_ending, List.append_assoc]
  cases hrun : run d start pre with
  | error f => exact .inl ⟨f, by simp [ending_append_of_error hrun, Except.map]⟩
  | ok s =>
    have hall := ((all_start (· ≠ x)).run (d := d) hplaceholder (hother hpre)).1 s hrun
    have hus := (ending_append_of_ok hrun (us ++ post)).trans (h.ending_eq hx s post)
    have hxs := (ending_append_of_ok hrun (x :: post)).trans (ending_literal hx s post)
    rw [hus, hxs]
    cases hend : ending d ⟨#[], s.stack, some x⟩ post with
    | error f => exact .inl ⟨f, rfl, rfl⟩
    | ok back =>
      have hstart : All (· ≠ x) ⟨#[], s.stack, some x⟩ := ⟨by simp, hall.stack⟩
      have hback := (hstart.ending (d := d) hplaceholder (hother hpost)).1
      refine .inr ⟨s.output.toList, back.toList, fun hmem => ?_, fun hmem => ?_, ?_, ?_⟩
      · exact hall.output x (Array.mem_toList_iff.mp hmem) rfl
      · exact hback back hend x (Array.mem_toList_iff.mp hmem) rfl
      · simp [Except.map]
      · simp [Except.map]

theorem ActsAsOperand.ofTokens_eq (h : ActsAsOperand d us mid) : ofTokens d us = .ok mid := by
  obtain ⟨c, hc, hrun⟩ := h
  rw [ofTokens_of_run_ok (hrun start)]
  simp [finish, Polish.filled, Dialect.expectsOperand, hc, popAll, start, Except.map]

/-- **Groups act as operands.**  A group in parentheses around tokens that close what they open has
the effect of a literal in the same place: either both texts fail with the same fault, or the
outputs differ only in that place, where the output of the tokens alone stands for the literal.
Parentheses around all tokens do not change the output. -/
theorem group_acts_as_operand {e : List Token} {o c : Token} (ho : o.kind = .opening)
    (hc : c.kind = .closing) (he : openFrom [] e = some []) (hx : x.kind = .literal)
    (hpre : x ∉ pre) (hpost : x ∉ post) :
    ∃ mid, ofTokens d e = .ok mid ∧ ofTokens d ([o] ++ e ++ [c]) = .ok mid ∧
      (∀ f, ofTokens d (pre ++ [o] ++ e ++ [c] ++ post) = .error f ↔
        ofTokens d (pre ++ [x] ++ post) = .error f) ∧
      ∀ polish, ofTokens d (pre ++ [x] ++ post) = .ok polish →
        ∃ front back, polish = front ++ [x] ++ back ∧ x ∉ front ∧ x ∉ back ∧
          ofTokens d (pre ++ [o] ++ e ++ [c] ++ post) = .ok (front ++ mid ++ back) := by
  obtain ⟨s, hs⟩ := exists_closes d he
  obtain ⟨mid, hmid, hgroup⟩ := hs.group ho hc
  have hexchange := hgroup.exchange hx hpre hpost
  simp only [List.append_assoc, List.cons_append, List.nil_append] at hexchange ⊢
  refine ⟨mid, hmid, hgroup.ofTokens_eq, ?_⟩
  rcases hexchange with ⟨f, hwith, hliteral⟩ | ⟨front, back, hfront, hback, hwith, hliteral⟩
  · rw [hwith, hliteral]
    exact ⟨fun f' => .rfl, fun polish h => nomatch h⟩
  · rw [hwith, hliteral]
    refine ⟨fun f => ⟨fun h => (nomatch h), fun h => nomatch h⟩, fun polish h => ?_⟩
    exact ⟨front, back, (Except.ok.inj h).symm, hfront, hback, rfl⟩

/-- In `-(1+)*2` the group, in which an operand is left out, stands for one literal. -/
theorem group_acts_as_operand_in_product :
    ∃ (pre e post polish : List Token) (o c x : Token),
      (pre ++ [o] ++ e ++ [c] ++ post).map (·.text) = ["-", "(", "1", "+", ")", "*", "2"] ∧
      ofTokens .standard (pre ++ [x] ++ post) = .ok polish ∧
      polish.map (·.text) = ["", "x", "-", "2", "*"] ∧
      ∃ front mid back, polish = front ++ [x] ++ back ∧ ofTokens .standard e = .ok mid ∧
        mid.map (·.text) = ["1", "", "+"] ∧
        ofTokens .standard (pre ++ [o] ++ e ++ [c] ++ post) = .ok (front ++ mid ++ back) := by
  let pre : List Token := [⟨.unary, "-", some 0⟩]
  let e : List Token := [⟨.literal, "1", some 2⟩, ⟨.operator, "+", some 3⟩]
  let post : List Token := [⟨.operator, "*", some 5⟩, ⟨.literal, "2", some 6⟩]
  let o : Token := ⟨.opening, "(", some 1⟩
  let c : Token := ⟨.closing, ")", some 4⟩
  let x : Token := ⟨.literal, "x", none⟩
  have hpolish : ∃ polish, ofTokens .standard (pre ++ [x] ++ post) = .ok polish ∧
      polish.map (·.text) = ["", "x", "-", "2", "*"] := ⟨_, rfl, rfl⟩
  obtain ⟨polish, hpolish, htext⟩ := hpolish
  have ho : o.kind = .opening := rfl
  have hc : c.kind = .closing := rfl
  have he : openFrom [] e = some [] := rfl
  have hx : x.kind = .literal := rfl
  have hpre : x ∉ pre := by decide
  have hpost : x ∉ post := by decide
  obtain ⟨mid, hmid, -, -, hok⟩ := group_acts_as_operand ho hc he hx hpre hpost
  obtain ⟨front, back, hplace, -, -, hgroup⟩ := hok polish hpolish
  have hmidText : mid.map (·.text) = ["1", "", "+"] := by
    have hone : ofTokens .standard e = .ok [⟨.literal, "1", some 2⟩, .placeholder,
      ⟨.operator, "+", some 3⟩] := rfl
    rw [hone] at hmid
    rw [← Except.ok.inj hmid]
    rfl
  exact ⟨pre, e, post, polish, o, c, x, rfl, hpolish, htext, front, mid, back, hplace, hmid,
    hmidText, hgroup⟩

end Polish

end Reckon
