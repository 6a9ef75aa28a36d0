import Mathlib.Data.List.Chain
import Reckon.Proofs.Polish.Steps
import Reckon.Proofs.Standard

/-!
# The language of expressions

Which token lists have a tree, and what is wrong with the others.  Two quantities decide it: the
groups that are open (`openFrom`), and the places where an operand directly follows another one
(`Dialect.juxtapositions`).  The second is tied to the state of the conversion by counting:
every token that waits to join two subtrees accounts for one subtree too many on the working stack
(`Level`).
-/

namespace Reckon

/-! ## What decides -/

/-- The groups and calls that are open behind some more tokens, the innermost first; none if a
closing parenthesis has nothing to close. -/
def openFrom (opened : List Token) : List Token → Option (List Token)
  | [] => some opened
  | t :: ts =>
    if t.kind.opensGroup then openFrom (t :: opened) ts
    else if t.kind = .closing then
      match opened with
      | [] => none
      | _ :: outer => openFrom outer ts
    else openFrom opened ts

namespace Dialect

variable (d : Dialect)

/-- Whether an operand can end with this token. -/
def endsOperand (t : Token) : Bool :=
  match t.kind with
  | .literal | .identifier | .missing | .closing => true
  | .unary => d.sideOf t.text == .after
  | .operator | .separator | .opening | .call => false

/-- Whether an operand can start with this token. -/
def startsOperand (t : Token) : Bool :=
  match t.kind with
  | .literal | .identifier | .missing | .opening | .call => true
  | .unary => d.sideOf t.text == .before
  | .operator | .separator | .closing => false

/-- Number of places where an operand directly follows another one. -/
def juxtapositions (ts : List Token) : Nat :=
  (ts.zip ts.tail).countP fun p => d.endsOperand p.1 && d.startsOperand p.2

end Dialect

/-- No group is empty; a call may be. -/
def NoEmptyGroup (ts : List Token) : Prop :=
  ts.IsChain fun a b => ¬ (a.kind = .opening ∧ b.kind = .closing)

theorem NoEmptyGroup.tail {p : Option Token} {t : Token} {ts : List Token}
    (h : NoEmptyGroup (p.toList ++ t :: ts)) : NoEmptyGroup (t :: ts) := by
  cases p with
  | none => exact h
  | some p => exact List.IsChain.of_cons h

theorem NoEmptyGroup.head {p : Option Token} {t : Token} {ts : List Token}
    (h : NoEmptyGroup (p.toList ++ t :: ts)) :
    ¬ (p.any (·.kind == .opening) ∧ t.kind = .closing) := by
  cases p with
  | none => simp
  | some p => simpa using (List.isChain_cons_cons.mp h).1

/-- Every leaf is an operand; in other words, every other token has both its operands. -/
def Tree.Joined : Tree → Prop
  | .leaf t => t.kind.isOperand
  | .node t l r => ¬ t.kind.isOperand ∧ l.Joined ∧ r.Joined

namespace Polish

variable {d : Dialect} {s s' : Polish} {t : Token}

/-! ## Joining -/

/-- Every token that is no operand finds two subtrees to join when it comes out. -/
def Fed (trees : List Tree) : List Token → Prop
  | [] => True
  | t :: ts => (t.kind.isOperand ∨ 2 ≤ trees.length) ∧ Fed (Tree.shift trees t) ts

theorem fed_append (trees : List Tree) (ts us : List Token) :
    Fed trees (ts ++ us) ↔ Fed trees ts ∧ Fed (ts.foldl Tree.shift trees) us := by
  induction ts generalizing trees with
  | nil => simp [Fed]
  | cons t ts ih => simp [Fed, ih, and_assoc]

theorem Fed.joined {trees : List Tree} {ts : List Token} (h : Fed trees ts)
    (ht : ∀ tree ∈ trees, tree.Joined) : ∀ tree ∈ ts.foldl Tree.shift trees, tree.Joined := by
  induction ts generalizing trees with
  | nil => simpa using ht
  | cons t ts ih =>
    obtain ⟨htwo, hrest⟩ := h
    refine ih hrest ?_
    by_cases hk : t.kind.isOperand
    · rw [shift_operand hk]
      simpa [Tree.Joined, hk] using ht
    · obtain ⟨right, left, below, rfl⟩ : ∃ right left below, trees = right :: left :: below := by
        match trees, htwo.resolve_left hk with
        | right :: left :: below, _ => exact ⟨right, left, below, rfl⟩
      rw [shift_joint hk]
      simp only [List.mem_cons, forall_eq_or_imp] at ht ⊢
      exact ⟨⟨hk, ht.2.1, ht.1⟩, ht.2.2⟩

theorem length_shift_joint {trees : List Tree} (hk : ¬ t.kind.isOperand) (h : 2 ≤ trees.length) :
    (Tree.shift trees t).length + 1 = trees.length := by
  match trees, h with
  | right :: left :: below, _ => rw [shift_joint hk]; rfl

/-! ## Counting -/

/-- How many tokens on a stack will join two subtrees. -/
def pending (stack : List Token) : Nat := stack.countP (·.kind != .opening)

/-- The output is sound and holds `n` subtrees more than the stack has joints. -/
structure Level (output : Array Token) (stack : List Token) (n : Nat) : Prop where
  fed : Fed [] output.toList
  joints : ∀ o ∈ stack, ¬ o.kind.isOperand
  length_eq : (forestOf output).length = pending stack + n

variable {output : Array Token} {stack ops rest : List Token} {n : Nat}

theorem Level.push_operand (h : Level output stack n) (hk : t.kind.isOperand) :
    Level (output.push t) stack (n + 1) := by
  refine ⟨?_, h.joints, ?_⟩
  · rw [Array.toList_push, fed_append]
    exact ⟨h.fed, .inl hk, trivial⟩
  · rw [forestOf_push, shift_operand hk, List.length_cons, h.length_eq]
    omega

theorem Level.push_joint (h : Level output stack (n + 2)) (hk : ¬ t.kind.isOperand) :
    Level (output.push t) stack (n + 1) := by
  have htwo : 2 ≤ (forestOf output).length := by rw [h.length_eq]; omega
  refine ⟨?_, h.joints, ?_⟩
  · rw [Array.toList_push, fed_append]
    exact ⟨h.fed, .inr htwo, trivial⟩
  · have hl := length_shift_joint hk htwo
    rw [forestOf_push]
    rw [h.length_eq] at hl
    omega

/-- What waits goes out, and each of these tokens joins two subtrees. -/
theorem Level.popped (h : Level output (ops ++ rest) (n + 1)) (hops : ∀ o ∈ ops, waits o) :
    Level (output ++ ops.toArray) rest (n + 1) := by
  induction ops generalizing output with
  | nil => simpa using h
  | cons op ops ih =>
    have hop : op.kind ≠ .opening := by
      intro hk
      simpa [waits, hk, TokenKind.opensGroup] using hops op (by simp)
    have hl : Level output (ops ++ rest) (n + 2) :=
      ⟨h.fed, fun o ho => h.joints o (by simp [ho]), by
        rw [h.length_eq, List.cons_append, pending, List.countP_cons_of_pos (by simpa using hop),
          pending]
        omega⟩
    have h' := ih (hl.push_joint (h.joints op (by simp))) fun o ho => hops o (by simp [ho])
    simpa using h'

theorem Level.wait (h : Level output stack (n + 1)) (hk : ¬ t.kind.isOperand)
    (ho : t.kind ≠ .opening) : Level output (t :: stack) n := by
  refine ⟨h.fed, by simpa [hk] using h.joints, ?_⟩
  rw [h.length_eq, pending, pending, List.countP_cons_of_pos (by simpa using ho)]
  omega

theorem Level.open_group (h : Level output stack n) (ho : t.kind = .opening) :
    Level output (t :: stack) n := by
  refine ⟨h.fed, by simpa [ho, TokenKind.isOperand] using h.joints, ?_⟩
  rw [h.length_eq, pending, pending, List.countP_cons_of_neg (by simp [ho])]

/-! ## One token -/

theorem starts_of_isOperand (h : t.kind.isOperand) : d.startsOperand t ∧ d.endsOperand t := by
  cases hk : t.kind <;> simp_all [TokenKind.isOperand, Dialect.startsOperand, Dialect.endsOperand]

theorem starts_of_opensGroup (h : t.kind.opensGroup) :
    d.startsOperand t ∧ ¬ d.endsOperand t := by
  cases hk : t.kind <;> simp_all [TokenKind.opensGroup, Dialect.startsOperand, Dialect.endsOperand]

theorem not_starts_of_isBinary (h : t.kind.isBinary) :
    ¬ d.startsOperand t ∧ ¬ d.endsOperand t := by
  cases hk : t.kind <;> simp_all [TokenKind.isBinary, Dialect.startsOperand, Dialect.endsOperand]

/-- What opens a group is a call or an opening parenthesis. -/
theorem opening_of_opensGroup (h : t.kind.opensGroup) (hc : t.kind ≠ .call) :
    t.kind = .opening := by
  cases hk : t.kind <;> simp_all [TokenKind.opensGroup]

theorem expectsOperand_some (t : Token) : d.expectsOperand (some t) = !d.endsOperand t := by
  cases hk : t.kind <;> simp only [Dialect.expectsOperand, Dialect.endsOperand, hk, Bool.not_true,
    Bool.not_false]
  simp only [Dialect.rank, Dialect.sideOf, hk]
  cases d.unary? t.text with
  | none => rfl
  | some op => cases hside : op.side <;> simp [hside]

theorem standsBefore_iff (h : t.kind = .unary) :
    (d.rank t).standsBefore = true ↔ d.startsOperand t = true := by
  have he := expectsOperand_some (d := d) t
  simp only [Dialect.expectsOperand, Dialect.endsOperand, h] at he
  simp only [Dialect.startsOperand, h, he]
  cases d.sideOf t.text <;> decide

/-- How many subtrees more than joints there are, not counting juxtapositions. -/
def surplus (d : Dialect) (previous : Option Token) : Nat :=
  if d.expectsOperand previous then 0 else 1

/-- Whether `t` starts an operand directly behind another one. -/
def meets (d : Dialect) (previous : Option Token) (t : Token) : Nat :=
  if (previous.any d.endsOperand && d.startsOperand t) = true then 1 else 0

theorem surplus_some (t : Token) : surplus d (some t) = if d.endsOperand t then 1 else 0 := by
  cases he : d.endsOperand t <;> simp [surplus, expectsOperand_some, he]

theorem meets_of_starts {previous : Option Token} (h : d.startsOperand t) :
    meets d previous t = surplus d previous := by
  cases previous with
  | none => rfl
  | some p => simp [meets, surplus_some, h]

theorem meets_of_not_starts {previous : Option Token} (h : ¬ d.startsOperand t) :
    meets d previous t = 0 := by
  simp [meets, h]

/-- What starts an operand and makes no juxtaposition comes where an operand is due. -/
theorem expectsOperand_of_meets (hs : d.startsOperand t) (hm : meets d s.previous t = 0) :
    d.expectsOperand s.previous := by
  rw [meets_of_starts hs, surplus] at hm
  by_contra he
  rw [if_neg he] at hm
  exact absurd hm (by decide)

theorem Level.filled (h : Level s.output s.stack (n + surplus d s.previous)) :
    Level (s.filled d) s.stack (n + 1) := by
  unfold Polish.filled
  by_cases he : d.expectsOperand s.previous
  · rw [if_pos he]
    rw [surplus, if_pos he] at h
    exact h.push_operand rfl
  · rw [if_neg he]
    rwa [surplus, if_neg he] at h

theorem waits_of_splitsAt {current : Rank} (h : SplitsAt (yields d current) ops rest) :
    ∀ o ∈ ops, waits o := by
  intro o ho
  have hy := h.1 o ho
  rw [yields, Bool.and_eq_true] at hy
  exact hy.1

/-- A step keeps the level, up to the juxtaposition that the token makes. -/
theorem Level.step (h : Level s.output s.stack (n + surplus d s.previous)) (hstep : Step d s t s')
    (hempty : ¬ (s.previous.any (·.kind == .opening) ∧ t.kind = .closing)) :
    Level s'.output s'.stack (n + meets d s.previous t + surplus d (some t)) := by
  cases hstep with
  | operand hk =>
    have hs := starts_of_isOperand (d := d) hk
    rw [meets_of_starts hs.1, surplus_some, if_pos hs.2]
    exact h.push_operand hk
  | opening hk =>
    have hs := starts_of_opensGroup (d := d) (t := t) (by rw [hk]; rfl)
    rw [meets_of_starts hs.1, surplus_some, if_neg hs.2]
    exact h.open_group hk
  | call hk =>
    have hs := starts_of_opensGroup (d := d) (t := t) (by rw [hk]; rfl)
    rw [meets_of_starts hs.1, surplus_some, if_neg hs.2]
    exact (h.push_operand rfl).wait (by simp [hk, TokenKind.isOperand]) (by simp [hk])
  | before hk hb =>
    have hs := (standsBefore_iff hk).mp hb
    have he : ¬ d.endsOperand t := by
      simp only [Dialect.startsOperand, Dialect.endsOperand, hk] at hs ⊢
      rw [eq_of_beq hs]
      decide
    rw [meets_of_starts hs, surplus_some, if_neg he]
    exact (h.push_operand rfl).wait (by simp [hk, TokenKind.isOperand]) (by simp [hk])
  | @after ops rest hk hb hs hops =>
    have hns : ¬ d.startsOperand t := fun h' => hb ((standsBefore_iff hk).mpr h')
    have he : d.endsOperand t := by
      simp only [Dialect.startsOperand, Dialect.endsOperand, hk] at hns ⊢
      cases hside : d.sideOf t.text <;> simp_all
    rw [meets_of_not_starts hns, surplus_some, if_pos he]
    have h₁ := h.filled
    rw [hs] at h₁
    have hnj : ¬ t.kind.isOperand := by simp [hk, TokenKind.isOperand]
    exact ((h₁.popped (waits_of_splitsAt hops)).push_operand rfl).push_joint hnj
  | @binary ops rest hk hs hops =>
    have hns := not_starts_of_isBinary (d := d) hk
    have hj : ¬ t.kind.isOperand ∧ t.kind ≠ .opening := by
      cases hk' : t.kind <;> simp_all [TokenKind.isBinary, TokenKind.isOperand]
    rw [meets_of_not_starts hns.1, surplus_some, if_neg hns.2]
    have h₁ := h.filled
    rw [hs] at h₁
    exact (h₁.popped (waits_of_splitsAt hops)).wait hj.1 hj.2
  | @closing ops rest opener hk hs hops ho =>
    have hns : ¬ d.startsOperand t ∧ d.endsOperand t := by
      simp [Dialect.startsOperand, Dialect.endsOperand, hk]
    rw [meets_of_not_starts hns.1, surplus_some, if_pos hns.2]
    have hout : s.closedOff d = s.filled d := if_neg fun h' => hempty ⟨h', hk⟩
    have h₁ := h.filled
    rw [hs] at h₁
    have h₂ := h₁.popped hops
    rw [hout]
    -- the call goes out as one more joint; an opening parenthesis is dropped
    by_cases hc : opener.kind = .call
    · have hnj : ¬ opener.kind.isOperand := by simp [hc, TokenKind.isOperand]
      have h₃ : Level (s.filled d ++ ops.toArray) rest (n + 2) :=
        ⟨h₂.fed, fun o ho => h₂.joints o (by simp [ho]), by
          rw [h₂.length_eq, pending, List.countP_cons_of_pos (by simp [hc]), pending]; omega⟩
      simpa [callOf, hc] using h₃.push_joint hnj
    · have hg := opening_of_opensGroup ho hc
      have h₃ : Level (s.filled d ++ ops.toArray) rest (n + 1) :=
        ⟨h₂.fed, fun o ho => h₂.joints o (by simp [ho]), by
          rw [h₂.length_eq, pending, List.countP_cons_of_neg (by simp [hg]), pending]⟩
      simpa [callOf, hg] using h₃

/-! ## Open groups -/

/-- The open groups on a stack. -/
def groups (stack : List Token) : List Token := stack.filter (·.kind.opensGroup)

theorem groups_append_of_waits (h : ∀ o ∈ ops, waits o) (rest : List Token) :
    groups (ops ++ rest) = groups rest := by
  have hnil : ops.filter (·.kind.opensGroup) = [] := by
    rw [List.filter_eq_nil_iff]
    intro o ho
    simpa [waits] using h o ho
  rw [groups, List.filter_append, hnil, List.nil_append, groups]

/-- What a step makes of the open groups: it opens one, ends the innermost one or leaves them. -/
theorem groups_step (h : Step d s t s') :
    (t.kind.opensGroup ∧ groups s'.stack = t :: groups s.stack) ∨
    (t.kind = .closing ∧ ∃ opener, groups s.stack = opener :: groups s'.stack) ∨
    (¬ t.kind.opensGroup ∧ t.kind ≠ .closing ∧ groups s'.stack = groups s.stack) := by
  cases h with
  | operand hk =>
    have hg : ¬ t.kind.opensGroup ∧ t.kind ≠ .closing := by
      cases hk' : t.kind <;> simp_all [TokenKind.isOperand, TokenKind.opensGroup]
    exact .inr (.inr ⟨hg.1, hg.2, rfl⟩)
  | opening hk => exact .inl (by simp [groups, hk, TokenKind.opensGroup])
  | call hk => exact .inl (by simp [groups, hk, TokenKind.opensGroup])
  | before hk hb => exact .inr (.inr (by simp [groups, hk, TokenKind.opensGroup]))
  | after hk hb hs hops =>
    rw [hs, groups_append_of_waits (waits_of_splitsAt hops)]
    exact .inr (.inr (by simp [hk, TokenKind.opensGroup]))
  | binary hk hs hops =>
    have hg : ¬ t.kind.opensGroup ∧ t.kind ≠ .closing := by
      cases hk' : t.kind <;> simp_all [TokenKind.isBinary, TokenKind.opensGroup]
    rw [hs, groups_append_of_waits (waits_of_splitsAt hops)]
    exact .inr (.inr ⟨hg.1, hg.2, by simp [groups, hg.1]⟩)
  | @closing ops rest opener hk hs hops ho =>
    rw [hs, groups_append_of_waits hops]
    exact .inr (.inl ⟨hk, opener, by simp [groups, ho]⟩)

/-- A step keeps the groups that will be open in the end. -/
theorem openFrom_step (h : Step d s t s') (ts : List Token) :
    openFrom (groups s.stack) (t :: ts) = openFrom (groups s'.stack) ts := by
  have hc : TokenKind.closing.opensGroup = false := rfl
  rcases groups_step h with ⟨hk, hg⟩ | ⟨hk, opener, hg⟩ | ⟨hk, hk', hg⟩
  · rw [hg]
    simp [openFrom, hk]
  · rw [hg]
    simp [openFrom, hk, hc]
  · rw [hg]
    simp [openFrom, hk, hk']

theorem groups_eq_nil_iff : groups stack = [] ↔ ∀ o ∈ stack, waits o := by
  simp [groups, waits]

theorem openFrom_stray (hk : t.kind = .closing) (hs : ∀ o ∈ s.stack, waits o) (ts : List Token) :
    openFrom (groups s.stack) (t :: ts) = none := by
  simp [openFrom, groups_eq_nil_iff.mpr hs, hk, TokenKind.opensGroup]

/-- The conversion fails at a closing parenthesis without partner, and there only. -/
theorem run_of_openFrom (d : Dialect) (s : Polish) (ts : List Token) :
    match openFrom (groups s.stack) ts with
    | none => ∃ close ∈ ts, run d s ts = .error (.unmatchedClose close d.opening)
    | some opened => ∃ s', run d s ts = .ok s' ∧ groups s'.stack = opened := by
  induction ts generalizing s with
  | nil => exact ⟨s, rfl, rfl⟩
  | cons t ts ih =>
    rcases step_or_stray d s t with ⟨s₁, h₁⟩ | ⟨hk, hs⟩
    · have ih₁ := ih s₁
      rw [openFrom_step h₁, run_cons_of_step h₁]
      cases ho : openFrom (groups s₁.stack) ts with
      | none =>
        rw [ho] at ih₁
        obtain ⟨close, hc, hr⟩ := ih₁
        exact ⟨close, by simp [hc], hr⟩
      | some opened =>
        rw [ho] at ih₁
        exact ih₁
    · rw [openFrom_stray hk hs]
      exact ⟨t, by simp, by rw [run_cons, push_stray hk hs]; rfl⟩

/-! ## All tokens -/

theorem juxtapositions_cons (p : Option Token) (t : Token) (ts : List Token) :
    d.juxtapositions (p.toList ++ t :: ts) = meets d p t + d.juxtapositions (t :: ts) := by
  cases p with
  | none => simp [meets]
  | some p => simp [Dialect.juxtapositions, meets, List.countP_cons, Nat.add_comm]

/-- The level after some more tokens: the surplus counts the juxtapositions. -/
theorem Level.run {ts : List Token} (h : Level s.output s.stack (n + surplus d s.previous))
    (hts : NoEmptyGroup (s.previous.toList ++ ts)) (hrun : run d s ts = .ok s') :
    Level s'.output s'.stack
      (n + d.juxtapositions (s.previous.toList ++ ts) + surplus d s'.previous) := by
  induction ts generalizing s n with
  | nil =>
    cases hrun
    cases hp : s'.previous <;> simpa [hp, Dialect.juxtapositions] using h
  | cons t ts ih =>
    obtain ⟨s₁, h₁, hrun₁⟩ := step_of_run_cons hrun
    have hp := h₁.previous_eq
    have hl := h.step h₁ hts.head
    rw [← hp] at hl
    have hlevel := ih hl (by rw [hp]; exact hts.tail) hrun₁
    rw [hp] at hlevel
    rw [juxtapositions_cons, ← Nat.add_assoc]
    exact hlevel

theorem level_start (d : Dialect) :
    Level start.output start.stack (0 + surplus d start.previous) :=
  ⟨trivial, by simp [start], rfl⟩

/-! ## The end -/

/-- The innermost group that is open in the end is what is told. -/
theorem finish_eq_unclosed {opener : Token} {opened : List Token}
    (h : groups s.stack = opener :: opened) : s.finish d = .error (unclosed d opener) := by
  rcases waits_or_exists_opener s.stack with hw | ⟨ops, o, rest, hs, hops, ho⟩
  · rw [groups_eq_nil_iff.mpr hw] at h
    cases h
  · have ho' : groups (o :: rest) = o :: groups rest := List.filter_cons_of_pos ho
    rw [hs, groups_append_of_waits hops, ho'] at h
    obtain ⟨rfl, -⟩ := List.cons.inj h
    rw [finish, hs, popAll_unclosed hops ho]

theorem code_unclosed (d : Dialect) (opener : Token) :
    (unclosed d opener).code = .unclosedGroup := by
  unfold unclosed
  split <;> rfl

theorem finish_unclosed {opener : Token} {opened : List Token}
    (h : groups s.stack = opener :: opened) :
    ∃ f, s.finish d = .error f ∧ f.code = .unclosedGroup :=
  ⟨unclosed d opener, finish_eq_unclosed h, code_unclosed d opener⟩

/-- All that waits goes out in the end. -/
theorem finish_of_groups (hs : groups s.stack = []) (hp : s.previous.isSome) :
    s.finish d = .ok (s.filled d ++ s.stack.toArray) := by
  rw [Polish.finish, if_pos hp, popAll_waiting (groups_eq_nil_iff.mp hs)]

theorem groups_of_finish {output : Array Token} (h : s.finish d = .ok output) :
    groups s.stack = [] := by
  cases hg : groups s.stack with
  | nil => rfl
  | cons opener opened =>
    obtain ⟨f, hf, -⟩ := finish_unclosed (d := d) hg
    rw [hf] at h
    cases h

/-- What is left in the end exceeds one subtree by the surplus. -/
theorem Level.finish (h : Level s.output s.stack (n + surplus d s.previous))
    (hs : groups s.stack = []) : Level (s.filled d ++ s.stack.toArray) [] (n + 1) := by
  have hf := h.filled
  rw [← List.append_nil s.stack] at hf
  exact hf.popped (groups_eq_nil_iff.mp hs)

/-- The tokens that come out of a conversion leave one subtree for each juxtaposition, and one. -/
theorem fed_of_ofTokens {ts : List Token} {output : Array Token} (h : NoEmptyGroup (t :: ts))
    (hrun : run d start (t :: ts) = .ok s) (hf : s.finish d = .ok output) :
    Fed [] output.toList ∧
      (output.toList.foldl Tree.shift []).length = d.juxtapositions (t :: ts) + 1 := by
  have hlevel := (level_start d).run h hrun
  simp only [start, Option.toList_none, List.nil_append, Nat.zero_add] at hlevel
  have hg := groups_of_finish hf
  rw [finish_of_groups hg (by rw [previous_of_run hrun]; simp)] at hf
  have hout := hlevel.finish hg
  rw [← Except.ok.inj hf]
  exact ⟨hout.fed, by simpa [forestOf, pending] using hout.length_eq⟩

/-- How many subtrees are left decides how building ends. -/
theorem ofPolish_of_length {polish : List Token} (h : (polish.foldl Tree.shift []).length = n + 1) :
    (n = 0 → ∃ tree, Tree.ofPolish polish = .ok tree) ∧
    (0 < n → ∃ residual, Tree.ofPolish polish = .error (.residual residual) ∧
      residual.length = n + 1) := by
  unfold Tree.ofPolish
  match hf : polish.foldl Tree.shift [] with
  | [] => simp [hf] at h
  | [tree] =>
    have hn : n = 0 := by simpa [hf] using h.symm
    exact ⟨fun _ => ⟨tree, rfl⟩, fun hpos => absurd hn (by omega)⟩
  | a :: b :: trees =>
    rw [hf] at h
    refine ⟨fun hn => ?_, fun _ => ⟨_, rfl, by simpa using h⟩⟩
    rw [hn] at h
    simp at h

/-- Tokens that make a tree make no juxtaposition, and in the end all that waits joins into it. -/
theorem run_of_ofPolish {ts polish : List Token} {tree : Tree} (h : NoEmptyGroup ts)
    (hp : ofTokens d ts = .ok polish) (ht : Tree.ofPolish polish = .ok tree) :
    d.juxtapositions ts = 0 ∧ ∃ s, run d start ts = .ok s ∧ (∀ o ∈ s.stack, waits o) ∧
      s.stack.foldl Tree.shift (forestOf (s.filled d)) = [tree] := by
  obtain ⟨s, output, hrun, hf, rfl⟩ := run_of_ofTokens hp
  cases ts with
  | nil =>
    cases hrun
    cases hf
    cases ht
  | cons t ts =>
    have hone := (fed_of_ofTokens h hrun hf).2
    have hroot := foldl_shift_of_ofPolish ht
    rw [hroot] at hone
    have hg := groups_of_finish hf
    rw [finish_of_groups hg (by rw [previous_of_run hrun]; simp)] at hf
    refine ⟨by simpa using hone.symm, s, hrun, groups_eq_nil_iff.mp hg, ?_⟩
    rw [← forestOf_append, Except.ok.inj hf, forestOf, hroot]

theorem message_residual {residual : List Tree} (h : residual.length = n) :
    (Fault.residual residual).message =
      s!"expression has {n} operands that no operator connects" := by
  subst h
  rfl

theorem Fed.two_le {trees : List Tree} {ts before after : List Token} (h : Fed trees ts)
    (hts : ts = before ++ t :: after) (hk : ¬ t.kind.isOperand) :
    2 ≤ (before.foldl Tree.shift trees).length := by
  subst hts
  exact ((fed_append _ _ _).mp h).2.1.resolve_left hk

/-! ## The outcome -/

/-- **The language.**  Without empty groups, tokens have a tree exactly if every group is closed,
there is a token, and no operand directly follows another one.  Otherwise the first of these that
fails is what is told, the last with the number of operands that nothing joins.  Every token that
is no operand finds its two operands. -/
theorem outcome_of_noEmptyGroup (d : Dialect) (ts : List Token) (h : NoEmptyGroup ts) :
    (openFrom [] ts = none → ∃ f, ofTokens d ts = .error f ∧ f.code = .unmatchedClose) ∧
    (∀ opener opened, openFrom [] ts = some (opener :: opened) →
      ∃ f, ofTokens d ts = .error f ∧ f.code = .unclosedGroup) ∧
    (openFrom [] ts = some [] → ∃ polish, ofTokens d ts = .ok polish ∧
      (ts = [] → Tree.ofPolish polish = .error .empty) ∧
      (ts ≠ [] → d.juxtapositions ts = 0 → ∃ tree, Tree.ofPolish polish = .ok tree) ∧
      (0 < d.juxtapositions ts → ∃ residual,
        Tree.ofPolish polish = .error (.residual residual) ∧
        residual.length = d.juxtapositions ts + 1 ∧
        (Fault.residual residual).message =
          s!"expression has {d.juxtapositions ts + 1} operands that no operator connects") ∧
      (∀ before t after, polish = before ++ t :: after → ¬ t.kind.isOperand →
        2 ≤ (before.foldl Tree.shift []).length) ∧
      ∀ tree ∈ polish.foldl Tree.shift [], tree.Joined) := by
  have hrun := run_of_openFrom d start ts
  refine ⟨fun ho => ?_, fun opener opened ho => ?_, fun ho => ?_⟩
  · rw [show groups start.stack = [] from rfl, ho] at hrun
    obtain ⟨close, -, hr⟩ := hrun
    exact ⟨_, ofTokens_of_run_error hr, rfl⟩
  · rw [show groups start.stack = [] from rfl, ho] at hrun
    obtain ⟨s, hr, hg⟩ := hrun
    obtain ⟨f, hf, hcode⟩ := finish_unclosed (d := d) hg
    exact ⟨f, by rw [ofTokens_of_run_ok hr, hf]; rfl, hcode⟩
  · rw [show groups start.stack = [] from rfl, ho] at hrun
    obtain ⟨s, hr, hg⟩ := hrun
    cases ts with
    | nil =>
      cases hr
      exact ⟨[], rfl, fun _ => rfl, fun h => absurd rfl h, fun h => absurd h (Nat.lt_irrefl 0),
        fun before t after h => by simp at h, by simp⟩
    | cons t ts =>
      have hok := finish_of_groups (d := d) hg (by rw [previous_of_run hr]; simp)
      obtain ⟨hfed, hlen⟩ := fed_of_ofTokens h hr hok
      obtain ⟨hone, hmore⟩ := ofPolish_of_length hlen
      refine ⟨_, by rw [ofTokens_of_run_ok hr, hok]; rfl, fun h => by simp at h, fun _ => hone,
        fun hpos => ?_, fun before u after hts hk => hfed.two_le hts hk, hfed.joined (by simp)⟩
      obtain ⟨residual, hr, hl⟩ := hmore hpos
      exact ⟨residual, hr, hl, message_residual hl⟩

/-- The tokens of `f(2,)! 3` leave the call and the number unjoined. -/
theorem outcome_of_adjacent_operands :
    ∃ ts : List Token, ts.map (·.text) = ["f", "2", ",", ")", "!", "3"] ∧ NoEmptyGroup ts ∧
      ∃ polish residual, ofTokens .standard ts = .ok polish ∧
        Tree.ofPolish polish = .error (.residual residual) ∧ residual.length = 2 := by
  let ts : List Token :=
    [⟨.call, "f", some 0⟩, ⟨.literal, "2", some 2⟩, ⟨.separator, ",", some 3⟩,
      ⟨.closing, ")", some 4⟩, ⟨.unary, "!", some 5⟩, ⟨.literal, "3", some 7⟩]
  have hts : NoEmptyGroup ts := by simp [NoEmptyGroup, ts]
  have hone : Dialect.standard.juxtapositions ts = 1 := by decide
  obtain ⟨-, -, hclosed⟩ := outcome_of_noEmptyGroup .standard ts hts
  obtain ⟨polish, hp, -, -, hmore, -⟩ := hclosed rfl
  obtain ⟨residual, hr, hl, -⟩ := hmore (by rw [hone]; decide)
  exact ⟨ts, rfl, hts, polish, residual, hp, hr, by rw [hl, hone]⟩

end Polish

end Reckon
