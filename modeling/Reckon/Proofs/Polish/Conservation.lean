import Reckon.Proofs.Polish.SourceOrder

/-!
# Nothing lost, nothing made up

Reverse Polish order is a rearrangement: every token that shows goes out exactly once, brackets do
not go out, and all that is added are placeholders.  What is out and what waits together are what
has been taken in (`Polish.Keeps`), whichever way a token is taken in.
-/

namespace Reckon

/-- Whether the token is a literal or a name, which go out as soon as they come. -/
def Token.isAtom (t : Token) : Bool :=
  match t.kind with
  | .literal | .identifier => true
  | .operator | .unary | .opening | .closing | .call | .separator | .missing => false

/-- Whether the token is a parenthesis by itself. -/
def Token.isParen (t : Token) : Bool :=
  match t.kind with
  | .opening | .closing => true
  | .literal | .identifier | .operator | .unary | .call | .separator | .missing => false

theorem filter_isAtom_append {t : Token} (ht : ¬ t.isAtom) (taken : List Token) :
    (taken ++ [t]).filter Token.isAtom = taken.filter Token.isAtom := by
  simp [List.filter_append, ht]

/-- What is put in somewhere shows as if it were put in last. -/
theorem perm_shown_insert {t : Token} {front back taken : List Token}
    (h : (shown (front ++ back)).Perm (shown taken)) :
    (shown (front ++ t :: back)).Perm (shown (taken ++ [t])) := by
  have hmiddle : (shown (front ++ t :: back)).Perm (shown ([t] ++ (front ++ back))) :=
    List.perm_middle.filter _
  rw [shown_append [t]] at hmiddle
  rw [shown_append taken]
  exact hmiddle.trans ((h.append_left _).trans List.perm_append_comm)

namespace Polish

variable {d : Dialect} {s s' : Polish} {t o : Token} {output : Array Token}
  {stack taken ops rest ts polish : List Token}

/-- What is out and what waits, against what has been taken in. -/
structure Keeps (output : Array Token) (stack taken : List Token) : Prop where
  perm : (shown (output.toList ++ stack)).Perm (shown taken)
  atoms : output.toList.filter Token.isAtom = taken.filter Token.isAtom
  output_ne : ∀ t ∈ output.toList, ¬ t.isParen
  stack_ne : ∀ t ∈ stack, ¬ t.isAtom

namespace Keeps

/-- A token goes out at once. -/
theorem emit (h : Keeps output stack taken) (ht : ¬ t.isParen) :
    Keeps (output.push t) stack (taken ++ [t]) := by
  refine ⟨?_, ?_, ?_, h.stack_ne⟩
  · rw [Array.toList_push, List.append_assoc]
    exact perm_shown_insert h.perm
  · rw [Array.toList_push, List.filter_append, List.filter_append, h.atoms]
  · rw [Array.toList_push, List.forall_mem_append]
    exact ⟨h.output_ne, by simpa using ht⟩

/-- A token waits on top of the stack. -/
theorem wait (h : Keeps output stack taken) (ht : ¬ t.isAtom) :
    Keeps output (t :: stack) (taken ++ [t]) := by
  refine ⟨perm_shown_insert h.perm, ?_, h.output_ne, List.forall_mem_cons.mpr ⟨ht, h.stack_ne⟩⟩
  rw [filter_isAtom_append ht, h.atoms]

/-- A token that shows nowhere is taken in and forgotten. -/
theorem ignore (h : Keeps output stack taken) (hs : ¬ t.shows) (ht : ¬ t.isAtom) :
    Keeps output stack (taken ++ [t]) := by
  refine ⟨?_, ?_, h.output_ne, h.stack_ne⟩
  · rw [shown_append taken, shown_singleton_of_not_shows hs, List.append_nil]
    exact h.perm
  · rw [filter_isAtom_append ht, h.atoms]

/-- A placeholder goes out for nothing that has been taken in. -/
theorem placeholder (h : Keeps output stack taken) :
    Keeps (output.push .placeholder) stack taken := by
  have hnone : shown [.placeholder] = [] := rfl
  refine ⟨?_, ?_, ?_, h.stack_ne⟩
  · rw [Array.toList_push, shown_append, shown_append, hnone, List.append_nil, ← shown_append]
    exact h.perm
  · rw [Array.toList_push, List.filter_append, h.atoms]
    exact List.append_nil _
  · rw [Array.toList_push, List.forall_mem_append]
    exact ⟨h.output_ne, by simp [Token.isParen, Token.placeholder]⟩

theorem filled (h : Keeps s.output s.stack taken) : Keeps (s.filled d) s.stack taken := by
  unfold Polish.filled
  split
  · exact h.placeholder
  · exact h

theorem closedOff (h : Keeps s.output s.stack taken) : Keeps (s.closedOff d) s.stack taken := by
  unfold Polish.closedOff
  split
  · exact h
  · exact h.filled

/-- What waits goes out. -/
theorem popped (h : Keeps output (ops ++ rest) taken) (hops : ∀ o ∈ ops, ¬ o.isParen) :
    Keeps (output ++ ops.toArray) rest taken := by
  obtain ⟨hatoms, hrest⟩ := List.forall_mem_append.mp h.stack_ne
  have hlist : (output ++ ops.toArray).toList = output.toList ++ ops := by simp
  refine ⟨?_, ?_, ?_, hrest⟩
  · rw [hlist, List.append_assoc]
    exact h.perm
  · rw [hlist, List.filter_append, h.atoms, List.filter_eq_nil_iff.mpr hatoms, List.append_nil]
  · rw [hlist, List.forall_mem_append]
    exact ⟨h.output_ne, hops⟩

/-- The bracket that ends a group takes away the one that opened it. -/
theorem drop (h : Keeps output (o :: rest) taken) (ho : o.kind = .opening) :
    Keeps output rest taken := by
  have hnone : shown [o] = [] := shown_singleton_of_not_shows (by simp [Token.shows, ho])
  refine ⟨?_, h.atoms, h.output_ne, (List.forall_mem_cons.mp h.stack_ne).2⟩
  have hperm := h.perm
  rw [← List.singleton_append, shown_append, shown_append, hnone, List.nil_append,
    ← shown_append] at hperm
  exact hperm

/-! ## One token -/

theorem step (h : Keeps s.output s.stack taken) (hstack : ∀ o ∈ s.stack, o.kind ≠ .closing)
    (hstep : Step d s t s') : Keeps s'.output s'.stack (taken ++ [t]) := by
  -- what waits and opens no group is no parenthesis, since no closing one waits
  have hparen : ∀ o ∈ s.stack, waits o → ¬ o.isParen := by
    intro o ho hw
    have hne := hstack o ho
    cases hk : o.kind <;> simp_all [waits, TokenKind.opensGroup, Token.isParen]
  cases hstep with
  | operand hk =>
    refine h.emit ?_
    cases hk' : t.kind <;> simp_all [TokenKind.isOperand, Token.isParen]
  | opening hk => exact h.wait (by simp [Token.isAtom, hk])
  | call hk => exact h.placeholder.wait (by simp [Token.isAtom, hk])
  | before hk hb => exact h.placeholder.wait (by simp [Token.isAtom, hk])
  | after hk hb hs hops =>
    have hfilled := h.filled (d := d)
    rw [hs] at hfilled hparen
    have hpopped := hfilled.popped fun o ho =>
      hparen o (List.mem_append_left _ ho) (waits_of_splitsAt hops o ho)
    exact hpopped.placeholder.emit (by simp [Token.isParen, hk])
  | binary hk hs hops =>
    have hfilled := h.filled (d := d)
    rw [hs] at hfilled hparen
    have hpopped := hfilled.popped fun o ho =>
      hparen o (List.mem_append_left _ ho) (waits_of_splitsAt hops o ho)
    refine hpopped.wait ?_
    cases hk' : t.kind <;> simp_all [TokenKind.isBinary, Token.isAtom]
  | @closing ops rest opener hk hs hops ho =>
    have hclosed := h.closedOff (d := d)
    rw [hs] at hclosed hparen
    have hpopped := hclosed.popped fun o ho => hparen o (List.mem_append_left _ ho) (hops o ho)
    have hend := hpopped.ignore (t := t) (by simp [Token.shows, hk]) (by simp [Token.isAtom, hk])
    by_cases hc : opener.kind = .call
    · have hend : Keeps _ ([opener] ++ rest) (taken ++ [t]) := hend
      have hcall := hend.popped (by simp [Token.isParen, hc])
      simpa [callOf, hc] using hcall
    · simpa [callOf, hc] using hend.drop (opening_of_opensGroup ho hc)

end Keeps

/-- No closing parenthesis waits. -/
theorem Step.stack_ne_closing (h : Step d s t s') (hstack : ∀ o ∈ s.stack, o.kind ≠ .closing) :
    ∀ o ∈ s'.stack, o.kind ≠ .closing := by
  cases h with
  | operand hk => exact hstack
  | opening hk => exact List.forall_mem_cons.mpr ⟨by simp [hk], hstack⟩
  | call hk => exact List.forall_mem_cons.mpr ⟨by simp [hk], hstack⟩
  | before hk hb => exact List.forall_mem_cons.mpr ⟨by simp [hk], hstack⟩
  | after hk hb hs hops =>
    rw [hs, List.forall_mem_append] at hstack
    exact hstack.2
  | binary hk hs hops =>
    rw [hs, List.forall_mem_append] at hstack
    refine List.forall_mem_cons.mpr ⟨?_, hstack.2⟩
    rintro hc
    simp [hc, TokenKind.isBinary] at hk
  | closing hk hs hops ho =>
    rw [hs, List.forall_mem_append, List.forall_mem_cons] at hstack
    exact hstack.2.2

/-! ## All tokens -/

theorem Keeps.run (h : Keeps s.output s.stack taken) (hstack : ∀ o ∈ s.stack, o.kind ≠ .closing)
    (hrun : Polish.run d s ts = .ok s') :
    Keeps s'.output s'.stack (taken ++ ts) ∧ ∀ o ∈ s'.stack, o.kind ≠ .closing := by
  induction ts generalizing s taken with
  | nil =>
    cases hrun
    rw [List.append_nil]
    exact ⟨h, hstack⟩
  | cons t ts ih =>
    obtain ⟨s₁, hstep, hrun⟩ := step_of_run_cons hrun
    rw [List.append_cons]
    exact ih (h.step hstack hstep) (hstep.stack_ne_closing hstack) hrun

/-- What comes out in the end is what has been taken in. -/
theorem keeps_of_ofTokens (h : ofTokens d ts = .ok polish) :
    ∃ output : Array Token, output.toList = polish ∧ Keeps output [] ts := by
  obtain ⟨s, output, hrun, hfinish, rfl⟩ := run_of_ofTokens h
  refine ⟨output, rfl, ?_⟩
  have hstart : Keeps start.output start.stack [] :=
    ⟨.refl _, rfl, by simp [start], by simp [start]⟩
  obtain ⟨hkeeps, hclosing⟩ := hstart.run (by simp [start]) hrun
  rw [List.nil_append] at hkeeps
  have hwaits := groups_eq_nil_iff.mp (groups_of_finish hfinish)
  have hlast : Keeps (if s.previous.isSome then s.filled d else s.output) s.stack ts := by
    split
    · exact hkeeps.filled
    · exact hkeeps
  rw [finish, popAll_waiting hwaits] at hfinish
  rw [← List.append_nil s.stack] at hlast
  have hout := hlast.popped fun o ho => by
    have hne := hclosing o ho
    have hw := hwaits o ho
    cases hk : o.kind <;> simp_all [waits, TokenKind.opensGroup, Token.isParen]
  rw [← Except.ok.inj hfinish]
  exact hout

/-- **Nothing lost, nothing made up.**  Where the conversion succeeds, its output without
placeholders is a permutation of the tokens without parentheses and placeholders.  Literals and
names stay in order, and no parenthesis goes out. -/
theorem perm_of_ofTokens (h : ofTokens d ts = .ok polish) :
    (polish.filter (!·.isMissing)).Perm (shown ts) ∧
    polish.filter (fun t => t.kind = .literal ∨ t.kind = .identifier) =
      ts.filter (fun t => t.kind = .literal ∨ t.kind = .identifier) ∧
    ∀ t ∈ polish, t.kind ≠ .opening ∧ t.kind ≠ .closing := by
  obtain ⟨output, hout, hperm, hatoms, hne, -⟩ := keeps_of_ofTokens h
  rw [hout] at hatoms hne
  rw [hout, List.append_nil] at hperm
  have hkinds : ∀ t ∈ polish, t.kind ≠ .opening ∧ t.kind ≠ .closing := by
    intro t ht
    have hparen := hne t ht
    constructor <;> intro hk <;> simp [Token.isParen, hk] at hparen
  have hisAtom : (fun t : Token => decide (t.kind = .literal ∨ t.kind = .identifier)) =
      Token.isAtom := by
    ext t
    cases hk : t.kind <;> simp [Token.isAtom, hk]
  have hshown : polish.filter (!·.isMissing) = shown polish := by
    refine List.filter_congr fun t ht => ?_
    have hk := hkinds t ht
    cases hk' : t.kind <;> simp_all [Token.isMissing, Token.shows]
  refine ⟨?_, by rw [hisAtom]; exact hatoms, hkinds⟩
  rw [hshown]
  exact hperm

/-- In `2 x - f(3,)!` two operands stand side by side and one is left out. -/
theorem perm_of_malformed :
    ∃ ts polish : List Token, ofTokens .standard ts = .ok polish ∧
      ts.map (·.text) = ["2", "x", "-", "f", "3", ",", ")", "!"] ∧
      polish.map (·.text) = ["2", "x", "", "3", "", ",", "f", "", "!", "-"] ∧
      (polish.filter (!·.isMissing)).Perm (shown ts) ∧ ∀ t ∈ polish, t.kind ≠ .closing := by
  let ts : List Token :=
    [⟨.literal, "2", some 0⟩, ⟨.identifier, "x", some 2⟩, ⟨.operator, "-", some 4⟩,
      ⟨.call, "f", some 6⟩, ⟨.literal, "3", some 8⟩, ⟨.separator, ",", some 9⟩,
      ⟨.closing, ")", some 10⟩, ⟨.unary, "!", some 11⟩]
  have hpolish : ∃ polish, ofTokens .standard ts = .ok polish ∧
      polish.map (·.text) = ["2", "x", "", "3", "", ",", "f", "", "!", "-"] := ⟨_, rfl, rfl⟩
  obtain ⟨polish, hpolish, htext⟩ := hpolish
  obtain ⟨hperm, -, hkinds⟩ := perm_of_ofTokens hpolish
  exact ⟨ts, polish, hpolish, rfl, htext, hperm, fun t ht => (hkinds t ht).2⟩

end Polish

end Reckon
