import Mathlib.Data.List.TakeWhile
import Reckon.Parse

/-!
# Steps to reverse Polish order

What `Polish.push` and `Polish.finish` do, said once.  `Polish.Step` lists the ways in which a token
is taken in; where tokens go out it splits the stack at the place down to which they do.
`Polish.forestOf` is the working stack of `Tree.ofPolish` after the tokens that have gone out.
-/

namespace Reckon

/-! ## Splitting a list where a test first fails -/

section Split

variable {α : Type} {p : α → Bool} {front back : List α}

/-- `front` is the longest part in front of `front ++ back` that passes the test. -/
def SplitsAt (p : α → Bool) (front back : List α) : Prop :=
  (∀ a ∈ front, p a) ∧ ∀ a ∈ back.head?, ¬ p a

theorem splitsAt_takeWhile (l : List α) : SplitsAt p (l.takeWhile p) (l.dropWhile p) := by
  refine ⟨fun a ha => List.mem_takeWhile_imp ha, fun a ha => ?_⟩
  have h := List.head?_dropWhile_not p l
  rw [Option.mem_def.mp ha] at h
  simpa using h

theorem SplitsAt.takeWhile_append (h : SplitsAt p front back) :
    (front ++ back).takeWhile p = front := by
  rw [List.takeWhile_append_of_pos h.1]
  cases back with
  | nil => simp
  | cons b back => simp [h.2 b rfl]

theorem SplitsAt.dropWhile_append (h : SplitsAt p front back) :
    (front ++ back).dropWhile p = back := by
  rw [List.dropWhile_append_of_pos h.1]
  cases back with
  | nil => rfl
  | cons b back => simp [h.2 b rfl]

end Split

namespace Polish

variable {d : Dialect} {s s' : Polish} {t : Token}

/-! ## Going out -/

/-- Whether a token on the stack goes out before a token of rank `current`. -/
def yields (d : Dialect) (current : Rank) (t : Token) : Bool :=
  !t.kind.opensGroup && (d.rank t).outranks current

/-- Whether a token on the stack goes out when its group ends. -/
def waits (t : Token) : Bool := !t.kind.opensGroup

theorem popOutranked_eq (current : Rank) (output : Array Token) (stack : List Token) :
    popOutranked d current output stack =
      (output ++ (stack.takeWhile (yields d current)).toArray,
        stack.dropWhile (yields d current)) := by
  induction stack generalizing output with
  | nil => simp [popOutranked]
  | cons top stack ih =>
    rw [popOutranked]
    by_cases hg : top.kind.opensGroup
    · simp [hg, yields]
    · by_cases ho : (d.rank top).outranks current
      · simp [hg, ho, ih, yields]
      · simp [hg, ho, yields]

theorem popOutranked_append {current : Rank} {ops rest : List Token}
    (h : SplitsAt (yields d current) ops rest) (output : Array Token) :
    popOutranked d current output (ops ++ rest) = (output ++ ops.toArray, rest) := by
  rw [popOutranked_eq, h.takeWhile_append, h.dropWhile_append]

/-- What goes out with the end of a group: the call that opened it. -/
def callOf (opener : Token) : List Token := if opener.kind = .call then [opener] else []

theorem popGroup_append {ops rest : List Token} {opener : Token} (hops : ∀ o ∈ ops, waits o)
    (ho : opener.kind.opensGroup) (close : Token) (output : Array Token) :
    popGroup d close output (ops ++ opener :: rest) =
      .ok (output ++ (ops ++ callOf opener).toArray, rest) := by
  induction ops generalizing output with
  | nil => cases hk : opener.kind <;> simp_all [popGroup, callOf, TokenKind.opensGroup]
  | cons op ops ih =>
    have hop : ¬ op.kind.opensGroup := by simpa [waits] using hops op (by simp)
    rw [List.cons_append, popGroup]
    cases hk : op.kind <;>
      simp_all [TokenKind.opensGroup]

theorem popGroup_stray {stack : List Token} (h : ∀ o ∈ stack, waits o) (close : Token)
    (output : Array Token) :
    popGroup d close output stack = .error (.unmatchedClose close d.opening) := by
  induction stack generalizing output with
  | nil => rfl
  | cons top stack ih =>
    have htop : ¬ top.kind.opensGroup := by simpa [waits] using h top (by simp)
    rw [popGroup]
    cases hk : top.kind <;> simp_all [TokenKind.opensGroup]

theorem popAll_waiting {stack : List Token} (h : ∀ o ∈ stack, waits o) (output : Array Token) :
    popAll d output stack = .ok (output ++ stack.toArray) := by
  induction stack generalizing output with
  | nil => simp [popAll]
  | cons top stack ih =>
    have htop : ¬ top.kind.opensGroup := by simpa [waits] using h top (by simp)
    rw [popAll]
    cases hk : top.kind <;> simp_all [TokenKind.opensGroup]

/-- The fault of a group that is never closed. -/
def unclosed (d : Dialect) (opener : Token) : Fault :=
  if opener.kind = .call then .unclosedCall opener d.closing else .unclosedGroup opener d.closing

theorem popAll_unclosed {ops rest : List Token} {opener : Token} (hops : ∀ o ∈ ops, waits o)
    (ho : opener.kind.opensGroup) (output : Array Token) :
    popAll d output (ops ++ opener :: rest) = .error (unclosed d opener) := by
  induction ops generalizing output with
  | nil => cases hk : opener.kind <;> simp_all [popAll, unclosed, TokenKind.opensGroup]
  | cons op ops ih =>
    have hop : ¬ op.kind.opensGroup := by simpa [waits] using hops op (by simp)
    rw [List.cons_append, popAll]
    cases hk : op.kind <;> simp_all [TokenKind.opensGroup]

/-! ## One token -/

/-- The output when a closing parenthesis comes: an empty group gets no placeholder. -/
def closedOff (d : Dialect) (s : Polish) : Array Token :=
  if s.previous.any (·.kind == .opening) then s.output else s.filled d

/-- The ways in which a token is taken in. -/
inductive Step (d : Dialect) (s : Polish) (t : Token) : Polish → Prop
  | operand (h : t.kind.isOperand) : Step d s t ⟨s.output.push t, s.stack, some t⟩
  | opening (h : t.kind = .opening) : Step d s t ⟨s.output, t :: s.stack, some t⟩
  | call (h : t.kind = .call) : Step d s t ⟨s.output.push .placeholder, t :: s.stack, some t⟩
  | before (h : t.kind = .unary) (hb : (d.rank t).standsBefore) :
      Step d s t ⟨s.output.push .placeholder, t :: s.stack, some t⟩
  | after {ops rest : List Token} (h : t.kind = .unary) (hb : ¬ (d.rank t).standsBefore)
      (hs : s.stack = ops ++ rest) (hops : SplitsAt (yields d (d.rank t)) ops rest) :
      Step d s t ⟨((s.filled d ++ ops.toArray).push .placeholder).push t, rest, some t⟩
  | binary {ops rest : List Token} (h : t.kind.isBinary) (hs : s.stack = ops ++ rest)
      (hops : SplitsAt (yields d (d.rank t)) ops rest) :
      Step d s t ⟨s.filled d ++ ops.toArray, t :: rest, some t⟩
  | closing {ops rest : List Token} {opener : Token} (h : t.kind = .closing)
      (hs : s.stack = ops ++ opener :: rest) (hops : ∀ o ∈ ops, waits o)
      (ho : opener.kind.opensGroup) :
      Step d s t ⟨s.closedOff d ++ (ops ++ callOf opener).toArray, rest, some t⟩

/-- A stack is split by its innermost open group, if there is one. -/
theorem waits_or_exists_opener (stack : List Token) :
    (∀ o ∈ stack, waits o) ∨ ∃ ops opener rest, stack = ops ++ opener :: rest ∧
      (∀ o ∈ ops, waits o) ∧ opener.kind.opensGroup := by
  induction stack with
  | nil => exact .inl (by simp)
  | cons top stack ih =>
    by_cases hg : top.kind.opensGroup
    · exact .inr ⟨[], top, stack, rfl, by simp, hg⟩
    have htop : waits top := by simpa [waits] using hg
    rcases ih with h | ⟨ops, opener, rest, rfl, hops, ho⟩
    · exact .inl (by simpa [htop] using h)
    · exact .inr ⟨top :: ops, opener, rest, rfl, by simpa [htop] using hops, ho⟩

theorem push_of_step (h : Step d s t s') : push d s t = .ok s' := by
  cases h with
  | operand h => cases hk : t.kind <;> simp_all [push, TokenKind.isOperand]
  | opening h => simp [push, h]
  | call h => simp [push, h]
  | before h hb => simp [push, h, hb]
  | after h hb hs hops => simp [push, h, hb, hs, popOutranked_append hops]
  | binary h hs hops =>
    cases hk : t.kind <;>
      simp_all [push, popOutranked_append hops, TokenKind.isBinary]
  | closing h hs hops ho => simp [push, h, hs, popGroup_append hops ho, closedOff]

theorem push_stray (h : t.kind = .closing) (hs : ∀ o ∈ s.stack, waits o) :
    push d s t = .error (.unmatchedClose t d.opening) := by
  simp [push, h, popGroup_stray hs]

/-- A token is taken in by a step, unless it is a closing parenthesis without partner. -/
theorem step_or_stray (d : Dialect) (s : Polish) (t : Token) :
    (∃ s', Step d s t s') ∨ t.kind = .closing ∧ ∀ o ∈ s.stack, waits o := by
  have hsplit := splitsAt_takeWhile (p := yields d (d.rank t)) s.stack
  have hstack := (List.takeWhile_append_dropWhile (p := yields d (d.rank t)) (l := s.stack)).symm
  cases hk : t.kind with
  | literal => exact .inl ⟨_, .operand (by rw [hk]; rfl)⟩
  | identifier => exact .inl ⟨_, .operand (by rw [hk]; rfl)⟩
  | missing => exact .inl ⟨_, .operand (by rw [hk]; rfl)⟩
  | operator => exact .inl ⟨_, .binary (by rw [hk]; rfl) hstack hsplit⟩
  | separator => exact .inl ⟨_, .binary (by rw [hk]; rfl) hstack hsplit⟩
  | opening => exact .inl ⟨_, .opening hk⟩
  | call => exact .inl ⟨_, .call hk⟩
  | unary =>
    by_cases hb : (d.rank t).standsBefore
    · exact .inl ⟨_, .before hk hb⟩
    · exact .inl ⟨_, .after hk hb hstack hsplit⟩
  | closing =>
    rcases waits_or_exists_opener s.stack with h | ⟨ops, opener, rest, hs, hops, ho⟩
    · exact .inr ⟨rfl, h⟩
    · exact .inl ⟨_, .closing hk hs hops ho⟩

theorem step_of_push (h : push d s t = .ok s') : Step d s t s' := by
  rcases step_or_stray d s t with ⟨s₁, h₁⟩ | ⟨hk, hs⟩
  · rw [push_of_step h₁] at h
    exact Except.ok.inj h ▸ h₁
  · rw [push_stray hk hs] at h
    cases h

/-! ## All tokens -/

/-- The state after some more tokens. -/
def run (d : Dialect) (s : Polish) (ts : List Token) : Except Fault Polish := ts.foldlM (push d) s

theorem run_cons (d : Dialect) (s : Polish) (t : Token) (ts : List Token) :
    run d s (t :: ts) = (push d s t).bind fun s' => run d s' ts := rfl

theorem run_cons_of_step (h : Step d s t s') (ts : List Token) :
    run d s (t :: ts) = run d s' ts := by
  rw [run_cons, push_of_step h]
  rfl

theorem step_of_run_cons {ts : List Token} (h : run d s (t :: ts) = .ok s') :
    ∃ s₁, Step d s t s₁ ∧ run d s₁ ts = .ok s' := by
  rcases step_or_stray d s t with ⟨s₁, h₁⟩ | ⟨hk, hs⟩
  · rw [run_cons_of_step h₁] at h
    exact ⟨s₁, h₁, h⟩
  · rw [run_cons, push_stray hk hs] at h
    cases h

theorem run_append_of_ok {ts : List Token} (h : run d s ts = .ok s') (us : List Token) :
    run d s (ts ++ us) = run d s' us := by
  induction ts generalizing s with
  | nil => cases h; rfl
  | cons t ts ih =>
    obtain ⟨s₁, h₁, hrun⟩ := step_of_run_cons h
    rw [List.cons_append, run_cons_of_step h₁, ih hrun]

theorem Step.previous_eq (h : Step d s t s') : s'.previous = some t := by cases h <;> rfl

/-- The token taken in last is the last one. -/
theorem previous_of_run {ts : List Token} (h : run d s ts = .ok s') :
    s'.previous = ts.getLast?.or s.previous := by
  induction ts generalizing s with
  | nil => cases h; rfl
  | cons t ts ih =>
    obtain ⟨s₁, h₁, hrun⟩ := step_of_run_cons h
    rw [ih hrun, h₁.previous_eq, List.getLast?_cons]
    cases ts.getLast? <;> rfl

theorem ofTokens_of_run_error {ts : List Token} {f : Fault} (h : run d start ts = .error f) :
    ofTokens d ts = .error f := by
  unfold run at h
  simp [ofTokens, h, bind, Except.bind]

theorem run_of_ofTokens {ts polish : List Token} (h : ofTokens d ts = .ok polish) :
    ∃ s output, run d start ts = .ok s ∧ s.finish d = .ok output ∧ polish = output.toList := by
  simp only [ofTokens, bind, Except.bind] at h
  cases hr : ts.foldlM (push d) start with
  | error f => rw [hr] at h; cases h
  | ok s =>
    cases hf : s.finish d with
    | error f => simp [hr, hf] at h
    | ok output =>
      simp only [hr, hf] at h
      exact ⟨s, output, hr, hf, (Except.ok.inj h).symm⟩

theorem ofTokens_of_run_ok {ts : List Token} (h : run d start ts = .ok s) :
    ofTokens d ts = (s.finish d).map Array.toList := by
  unfold run at h
  simp only [ofTokens, h]
  rfl

/-- The output after some more tokens, if they are the last ones. -/
def ending (d : Dialect) (s : Polish) (ts : List Token) : Except Fault (Array Token) :=
  (run d s ts).bind fun s => s.finish d

theorem ending_append_of_ok {ts : List Token} (h : run d s ts = .ok s') (us : List Token) :
    ending d s (ts ++ us) = ending d s' us := by
  rw [ending, run_append_of_ok h, ending]

theorem ending_append_of_error {ts : List Token} {f : Fault} (h : run d s ts = .error f)
    (us : List Token) : ending d s (ts ++ us) = .error f := by
  rw [ending, run, List.foldlM_append, ← run, h]
  rfl

theorem ofTokens_eq_ending (ts : List Token) :
    ofTokens d ts = (ending d start ts).map Array.toList := by
  unfold ending
  cases hrun : run d start ts with
  | error f => exact ofTokens_of_run_error hrun
  | ok s => exact ofTokens_of_run_ok hrun

/-! ## The working stack -/

/-- The working stack after the tokens that have gone out, the latest subtree first. -/
def forestOf (output : Array Token) : List Tree := output.toList.foldl Tree.shift []

def forest (s : Polish) : List Tree := forestOf s.output

@[simp] theorem forestOf_push (output : Array Token) (t : Token) :
    forestOf (output.push t) = Tree.shift (forestOf output) t := by
  simp [forestOf]

@[simp] theorem forestOf_append (output : Array Token) (ts : List Token) :
    forestOf (output ++ ts.toArray) = ts.foldl Tree.shift (forestOf output) := by
  simp [forestOf]

theorem shift_operand (h : t.kind.isOperand) (trees : List Tree) :
    Tree.shift trees t = .leaf t :: trees := by
  unfold Tree.shift
  split <;> simp [h]

@[simp] theorem shift_placeholder (trees : List Tree) :
    Tree.shift trees .placeholder = .leaf .placeholder :: trees := shift_operand rfl trees

theorem shift_joint (h : ¬ t.kind.isOperand) (left right : Tree) (below : List Tree) :
    Tree.shift (right :: left :: below) t = .node t left right :: below := by
  simp [Tree.shift, h]

theorem foldl_shift_of_ofPolish {ts : List Token} {tree : Tree} (h : Tree.ofPolish ts = .ok tree) :
    ts.foldl Tree.shift [] = [tree] := by
  unfold Tree.ofPolish at h
  split at h
  · cases h
  · rename_i tree' heq
    rw [heq, Except.ok.inj h]
  · cases h

end Polish

/-- The stages of a text that has a tree. -/
theorem parse_eq_ok {d : Dialect} {source : String} {p : Parsed}
    (h : d.parse source = .ok p) :
    p.tokens = d.tokens source ∧ Polish.ofTokens d p.tokens = .ok p.polish ∧
      Tree.ofPolish p.polish = .ok p.tree := by
  simp only [Dialect.parse, bind, Except.bind] at h
  cases hp : Polish.ofTokens d (d.tokens source) with
  | error f => simp [hp] at h
  | ok polish =>
    cases ht : Tree.ofPolish polish with
    | error f => simp [hp, ht] at h
    | ok tree =>
      simp only [hp, ht] at h
      cases h
      exact ⟨rfl, hp, ht⟩

end Reckon
