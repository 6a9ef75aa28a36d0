import Reckon.Proofs.Polish.Climbing
import Reckon.Proofs.Polish.Steps

/-!
# Operands on the stack

What the conversion has done when it has taken in an operand (`Climbing.Reads`): the tokens that
still wait to join its parts outrank what comes next, and with them joined its tree is on top of the
working stack.
-/

namespace Reckon

open Polish

variable {d : Dialect} {c n t : Token}

/-! ## Ranks -/

namespace Dialect

/-- A declared operator or a separator. -/
def isJoint (d : Dialect) (t : Token) : Bool := d.isBetween t || d.isBefore t || d.isAfter t

/-- The rank of a declared operator says what its declaration says. -/
theorem rank_of_isJoint (h : d.isJoint t) :
    d.rank t = ⟨d.priorityOf t, d.groupsLeft t, d.isBefore t⟩ := by
  simp only [isJoint, Bool.or_eq_true] at h
  rcases h with (h | h) | h
  · rcases isBetween_kind h with hk | ⟨hk, op, hop⟩
    · simp [rank, priorityOf, groupsLeft, isBefore, hk]
    · simp [rank, priorityOf, groupsLeft, isBefore, hk, hop]
  · obtain ⟨hk, op, hop, hside⟩ := isBefore_kind h
    simp [rank, priorityOf, groupsLeft, isBefore, isAfter, hk, hop, hside]
  · obtain ⟨hk, op, hop, hside⟩ := isAfter_kind h
    simp [rank, priorityOf, groupsLeft, isBefore, isAfter, hk, hop, hside]

theorem rank_outranks (hc : d.isJoint c) (hn : d.isJoint n) :
    (d.rank c).outranks (d.rank n) = d.outranks c n := by
  rw [rank_of_isJoint hc, rank_of_isJoint hn, Rank.outranks, outranks]

end Dialect

namespace Climbing

variable {s s₀ s₁ s₂ : Polish} {ts rest : List Token} {tree left : Tree} {pending : Option Token}
  {fuel : Nat}

/-! ## What climbing leaves on the stack -/

/-- Whether `n` would be absorbed by an operand with nothing pending. -/
def isNext (d : Dialect) (n : Token) : Bool := d.isBetween n || d.isAfter n

/-- From `s₀` on, `tree` has been read as an operand, up to the tokens that wait to join its parts.
All of them outrank what comes next. -/
structure Reads (d : Dialect) (s₀ s₁ : Polish) (tree : Tree) (rest : List Token) : Prop where
  complete : ¬ d.expectsOperand s₁.previous
  waiting : ∃ ops, s₁.stack = ops ++ s₀.stack ∧ (∀ o ∈ ops, waits o) ∧
    (∀ o ∈ ops, ∀ n ∈ rest.head?, isNext d n → (d.rank o).outranks (d.rank n)) ∧
    ops.foldl Tree.shift s₁.forest = tree :: s₀.forest

/-- From `s₀` on, `tree` has been read as an operand and nothing waits behind it. -/
structure Lands (d : Dialect) (s₀ s₁ : Polish) (tree : Tree) : Prop where
  complete : ¬ d.expectsOperand s₁.previous
  stack_eq : s₁.stack = s₀.stack
  forest_eq : s₁.forest = tree :: s₀.forest

/-- The pending operator is on top of the stack; if there is none, a group or nothing is. -/
def OnTop (d : Dialect) (stack : List Token) : Option Token → Prop
  | none => ∀ o ∈ stack.head?, o.kind.opensGroup
  | some c => d.isJoint c ∧ stack.head? = some c

/-- Nothing more is absorbed: what comes next is outranked or is no operator. -/
def Stops (d : Dialect) (pending : Option Token) (rest : List Token) : Prop :=
  ∀ n ∈ rest.head?, isNext d n → pending.any (d.outranks · n)

theorem isJoint_of_isNext (h : isNext d n) : d.isJoint n := by
  simp only [isNext, Dialect.isJoint, Bool.or_eq_true] at h ⊢
  rcases h with h | h
  · exact .inl (.inl h)
  · exact .inr h

theorem not_isOperand_of_isJoint (h : d.isJoint t) : ¬ t.kind.isOperand := by
  simp only [Dialect.isJoint, Bool.or_eq_true] at h
  rcases h with (h | h) | h
  · rcases Dialect.isBetween_kind h with hk | ⟨hk, -⟩ <;> simp [hk, TokenKind.isOperand]
  · simp [(Dialect.isBefore_kind h).1, TokenKind.isOperand]
  · simp [(Dialect.isAfter_kind h).1, TokenKind.isOperand]

theorem waits_of_isJoint (h : d.isJoint t) : waits t := by
  simp only [Dialect.isJoint, Bool.or_eq_true] at h
  rcases h with (h | h) | h
  · rcases Dialect.isBetween_kind h with hk | ⟨hk, -⟩ <;> simp [waits, hk, TokenKind.opensGroup]
  · simp [waits, (Dialect.isBefore_kind h).1, TokenKind.opensGroup]
  · simp [waits, (Dialect.isAfter_kind h).1, TokenKind.opensGroup]

theorem Reads.filled_eq (h : Reads d s₀ s₁ tree rest) : s₁.filled d = s₁.output := by
  unfold Polish.filled
  rw [if_neg h.complete]

theorem Reads.closedOff_eq (h : Reads d s₀ s₁ tree rest) : s₁.closedOff d = s₁.output := by
  unfold closedOff
  rw [h.filled_eq]
  split <;> rfl

theorem Lands.reads (h : Lands d s₀ s₁ tree) (rest : List Token) : Reads d s₀ s₁ tree rest :=
  ⟨h.complete, [], by simpa using h.stack_eq, by simp, by simp, by simpa using h.forest_eq⟩

theorem lands_operand (hop : t.kind.isOperand) (s : Polish) :
    Lands d s ⟨s.output.push t, s.stack, some t⟩ (.leaf t) := by
  refine ⟨?_, rfl, by simp [forest, shift_operand hop]⟩
  cases hk : t.kind <;> simp_all [Dialect.expectsOperand, TokenKind.isOperand]

/-- The pending operator `c` takes its right operand, with its left one next on the stack. -/
theorem Reads.join {right : Tree} {below : List Tree} (hc : d.isJoint c)
    (h : Reads d s₁ s₂ right rest) (hstack : s₁.stack = c :: s₀.stack)
    (hforest : s₁.forest = left :: below) (hbelow : below = s₀.forest)
    (hstop : Stops d (some c) rest) : Reads d s₀ s₂ (.node c left right) rest := by
  obtain ⟨hprev, ops, hops, hwaits, hout, hjoin⟩ := h
  refine ⟨hprev, ops ++ [c], ?_, ?_, ?_, ?_⟩
  · rw [hops, hstack]
    simp
  · intro o ho
    rcases List.mem_append.mp ho with ho | ho
    · exact hwaits o ho
    · rw [List.mem_singleton.mp ho]
      exact waits_of_isJoint hc
  · intro o ho n hn hnext
    rcases List.mem_append.mp ho with ho | ho
    · exact hout o ho n hn hnext
    · rw [List.mem_singleton.mp ho, Dialect.rank_outranks hc (isJoint_of_isNext hnext)]
      simpa using hstop n hn hnext
  · rw [List.foldl_append, hjoin, hforest, hbelow, List.foldl_cons, List.foldl_nil,
      shift_joint (not_isOperand_of_isJoint hc)]

/-! ## Steps around operands -/

/-- What waits goes out before the next operator, down to the one that is pending. -/
theorem Reads.splitsAt (h : Reads d s₀ s₁ left (n :: ts)) (htop : OnTop d s₀.stack pending)
    (hnext : isNext d n) (hnot : ¬ pending.any (d.outranks · n)) :
    ∃ ops, s₁.stack = ops ++ s₀.stack ∧ SplitsAt (yields d (d.rank n)) ops s₀.stack ∧
      forestOf (s₁.output ++ ops.toArray) = left :: s₀.forest := by
  obtain ⟨-, ops, hops, hwaits, hout, hjoin⟩ := h
  refine ⟨ops, hops, ⟨fun o ho => ?_, fun o ho => ?_⟩, by rwa [forestOf_append]⟩
  · have hw := hwaits o ho
    rw [waits] at hw
    rw [yields, hw, hout o ho n rfl hnext]
    rfl
  · cases pending with
    | none => simp [yields, htop o ho]
    | some c =>
      obtain ⟨hc, hhead⟩ := htop
      rw [hhead] at ho
      have hc' : ¬ d.outranks c n := by simpa using hnot
      rw [yields, ← Option.some.inj ho, Dialect.rank_outranks hc (isJoint_of_isNext hnext)]
      simp [hc']

/-- An operator between operands waits on top of the left one. -/
theorem Reads.step_between (h : Reads d s s₁ left (n :: ts)) (htop : OnTop d s.stack pending)
    (hn : d.isBetween n) (hnot : ¬ pending.any (d.outranks · n)) :
    ∃ output, Step d s₁ n ⟨output, n :: s.stack, some n⟩ ∧ forestOf output = left :: s.forest := by
  have hnext : isNext d n := by simp [isNext, hn]
  have hbinary : n.kind.isBinary := by
    rcases Dialect.isBetween_kind hn with hk | ⟨hk, -⟩ <;> rw [hk] <;> rfl
  obtain ⟨ops, hops, hsplit, hjoin⟩ := h.splitsAt htop hnext hnot
  have hstep := Step.binary hbinary hops hsplit
  rw [h.filled_eq] at hstep
  exact ⟨_, hstep, hjoin⟩

/-- An operator behind its operand takes it at once. -/
theorem Reads.step_after (h : Reads d s s₁ left (n :: ts)) (htop : OnTop d s.stack pending)
    (hn : d.isAfter n) (hnot : ¬ pending.any (d.outranks · n)) :
    ∃ s₂, Step d s₁ n s₂ ∧ Lands d s s₂ (.node n left nothing) := by
  have hnext : isNext d n := by simp [isNext, hn]
  have hjoint := isJoint_of_isNext hnext
  obtain ⟨hk, op, hop, hside⟩ := Dialect.isAfter_kind hn
  have hrank : ¬ (d.rank n).standsBefore := by
    simp [Dialect.rank_of_isJoint hjoint, Dialect.isBefore, hop, hside]
  obtain ⟨ops, hops, hsplit, hjoin⟩ := h.splitsAt htop hnext hnot
  have hstep := Step.after hk hrank hops hsplit
  rw [h.filled_eq] at hstep
  refine ⟨_, hstep, by simpa [Dialect.expectsOperand, hk] using hrank, rfl, ?_⟩
  rw [forest, forestOf_push, forestOf_push, shift_placeholder, hjoin,
    shift_joint (not_isOperand_of_isJoint hjoint)]
  rfl

/-- An operator before its operand waits on top of a placeholder. -/
theorem step_before (s : Polish) (hb : d.isBefore t) :
    Step d s t ⟨s.output.push .placeholder, t :: s.stack, some t⟩ ∧
      forestOf (s.output.push .placeholder) = nothing :: s.forest := by
  have hjoint : d.isJoint t := by simp [Dialect.isJoint, hb]
  have hrank : (d.rank t).standsBefore := by rw [Dialect.rank_of_isJoint hjoint]; exact hb
  refine ⟨.before (Dialect.isBefore_kind hb).1 hrank, ?_⟩
  rw [forestOf_push, shift_placeholder]
  rfl

/-- A closing parenthesis ends what has been read since the one that it closes. -/
theorem Reads.close {inner : Tree} {opener close : Token} (h : Reads d s s₁ inner rest)
    (hk : close.kind = .closing) (hopener : opener.kind.opensGroup)
    (hstack : s.stack = opener :: s₀.stack) :
    ∃ output, Step d s₁ close ⟨output ++ (callOf opener).toArray, s₀.stack, some close⟩ ∧
      forestOf output = inner :: s.forest := by
  obtain ⟨ops, hops, hwaits, -, hjoin⟩ := h.waiting
  rw [hstack] at hops
  have hstep := Step.closing (d := d) hk hops hwaits hopener
  rw [h.closedOff_eq] at hstep
  refine ⟨s₁.output ++ ops.toArray, by simpa using hstep, ?_⟩
  rwa [forestOf_append]

theorem Reads.endGroup {close : Token}
    (h : Reads d ⟨s.output, t :: s.stack, some t⟩ s₁ tree rest) (hk : t.kind = .opening)
    (hclose : close.kind = .closing) : ∃ s', Step d s₁ close s' ∧ Lands d s s' tree := by
  have hopener : t.kind.opensGroup := by rw [hk]; rfl
  have hcall : callOf t = [] := by simp [callOf, hk]
  obtain ⟨output, hstep, hforest⟩ := h.close hclose hopener rfl
  refine ⟨_, hstep, by simp [Dialect.expectsOperand, hclose], rfl, ?_⟩
  rw [forest, hcall, forestOf_append, hforest]
  rfl

theorem Reads.endCall {close : Token}
    (h : Reads d ⟨s.output.push .placeholder, t :: s.stack, some t⟩ s₁ tree rest)
    (hk : t.kind = .call) (hclose : close.kind = .closing) :
    ∃ s', Step d s₁ close s' ∧ Lands d s s' (.node t nothing tree) := by
  have hopener : t.kind.opensGroup := by rw [hk]; rfl
  have hcall : callOf t = [t] := by simp [callOf, hk]
  obtain ⟨output, hstep, hforest⟩ := h.close hclose hopener rfl
  refine ⟨_, hstep, by simp [Dialect.expectsOperand, hclose], rfl, ?_⟩
  rw [forest, hcall, forestOf_append, hforest, forest, forestOf_push, shift_placeholder,
    List.foldl_cons, List.foldl_nil, shift_joint (by simp [hk, TokenKind.isOperand])]
  rfl

/-- A call without arguments gets two placeholders. -/
theorem lands_bareCall {close : Token} (s : Polish) (hk : t.kind = .call)
    (hclose : close.kind = .closing) :
    ∃ s', Step d ⟨s.output.push .placeholder, t :: s.stack, some t⟩ close s' ∧
      Lands d s s' (.node t nothing nothing) := by
  have hopener : t.kind.opensGroup := by rw [hk]; rfl
  have hcall : callOf t = [t] := by simp [callOf, hk]
  have hoff : closedOff d ⟨s.output.push .placeholder, t :: s.stack, some t⟩ =
      (s.output.push .placeholder).push .placeholder := by
    simp [closedOff, Polish.filled, Dialect.expectsOperand, hk]
  have hstep := Step.closing (d := d) (s := ⟨s.output.push .placeholder, t :: s.stack, some t⟩)
    hclose (List.nil_append _).symm (by simp) hopener
  refine ⟨_, hstep, by simp [Dialect.expectsOperand, hclose], rfl, ?_⟩
  rw [forest, hoff, hcall, List.nil_append, forestOf_append, forestOf_push, forestOf_push,
    shift_placeholder, shift_placeholder, List.foldl_cons, List.foldl_nil,
    shift_joint (by simp [hk, TokenKind.isOperand])]
  rfl

/-! ## Tokens taken in -/

/-- The conversion takes in the tokens that `ts` has in front of `rest`. -/
def Follows (d : Dialect) (s : Polish) (ts rest : List Token) (s' : Polish) : Prop :=
  ∃ used, ts = used ++ rest ∧ run d s used = .ok s'

theorem Follows.refl (s : Polish) (ts : List Token) : Follows d s ts ts s := ⟨[], rfl, rfl⟩

theorem Follows.cons (hstep : Step d s t s₁) (h : Follows d s₁ ts rest s₂) :
    Follows d s (t :: ts) rest s₂ := by
  obtain ⟨used, rfl, hrun⟩ := h
  exact ⟨t :: used, rfl, by rw [run_cons_of_step hstep, hrun]⟩

theorem Follows.trans {us : List Token} (h : Follows d s ts us s₁) (h' : Follows d s₁ us rest s₂) :
    Follows d s ts rest s₂ := by
  obtain ⟨used, rfl, hrun⟩ := h
  obtain ⟨used', rfl, hrun'⟩ := h'
  exact ⟨used ++ used', by simp, by rw [run_append_of_ok hrun, hrun']⟩

/-- When the tokens end behind an operand, the whole conversion spells its tree. -/
theorem Reads.ofTokens_eq (h : Reads d start s tree []) (hrun : run d start ts = .ok s) :
    ∃ polish, ofTokens d ts = .ok polish ∧ Tree.ofPolish polish = .ok tree := by
  obtain ⟨ops, hops, hwaits, -, hjoin⟩ := h.waiting
  have hstack : s.stack = ops := by simpa [start] using hops
  have hfinish : s.finish d = .ok (s.output ++ ops.toArray) := by
    rw [Polish.finish, h.filled_eq, ite_self, hstack, popAll_waiting hwaits]
  refine ⟨_, by rw [ofTokens_of_run_ok hrun, hfinish]; rfl, ?_⟩
  have hforest : forestOf (s.output ++ ops.toArray) = [tree] := by rwa [forestOf_append]
  unfold Tree.ofPolish
  rw [forestOf] at hforest
  rw [hforest]

end Climbing

end Reckon
