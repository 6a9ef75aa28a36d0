import Mathlib.Data.List.TakeWhile
import Reckon.Proofs.Polish.Language
import Reckon.Proofs.Scan.Claims

/-!
# The root of a tree

The root is the token that goes out last.  A placeholder never is: where one goes out, a token waits
that will join it (`Polish.Settled`).  This holds for every text, also with empty groups and operands
that are not written.
-/

namespace Reckon

variable {d : Dialect} {t : Token} {ts : List Token}

/-- The token that comes in last is on top. -/
theorem Tree.head?_shift (trees : List Tree) (t : Token) :
    (shift trees t).head?.map Tree.token = some t := by
  unfold shift
  split
  · split <;> rfl
  · rfl

/-- A tree has the token at its root that goes out last. -/
theorem Tree.getLast?_of_ofPolish {tree : Tree} (h : ofPolish ts = .ok tree) :
    ts.getLast? = some tree.token := by
  have hroot := Polish.foldl_shift_of_ofPolish h
  cases ts using List.reverseRecOn with
  | nil => cases hroot
  | append_singleton ts t =>
    rw [List.foldl_append] at hroot
    have htop := head?_shift (ts.foldl shift []) t
    rw [List.foldl_cons, List.foldl_nil] at hroot
    rw [hroot] at htop
    rw [List.getLast?_append]
    exact htop.symm

namespace Polish

variable {s s' : Polish} {output : Array Token} {stack ops rest : List Token}

/-- The token that expects an operand waits on top of the stack. -/
theorem Step.head?_stack (h : Step d s t s') (he : d.expectsOperand (some t)) :
    s'.stack.head? = some t := by
  cases h with
  | operand hk => cases hk' : t.kind <;> simp_all [TokenKind.isOperand, Dialect.expectsOperand]
  | opening hk => rfl
  | call hk => rfl
  | before hk hb => rfl
  | after hk hb hs hops =>
    rw [Dialect.expectsOperand, hk] at he
    exact absurd he hb
  | binary hk hs hops => rfl
  | closing hk hs hops ho => simp [Dialect.expectsOperand, hk] at he

theorem exists_mem_of_getLast?_append (output : Array Token) {ops : List Token} (h : ops ≠ []) :
    ∃ o ∈ ops, (output ++ ops.toArray).toList.getLast? = some o := by
  refine ⟨ops.getLast h, List.getLast_mem h, ?_⟩
  rw [Array.toList_append, List.getLast?_append, List.getLast?_eq_some_getLast h]
  rfl

/-! ## Placeholders -/

/-- No placeholder waits, and if one has gone out last, a token waits that joins it. -/
structure Settled (output : Array Token) (stack : List Token) : Prop where
  written : ∀ o ∈ stack, o.kind ≠ .missing
  joined : ∀ o, output.toList.getLast? = some o → o.kind = .missing →
    ∃ j ∈ stack, j.kind ≠ .opening

namespace Settled

theorem push (h : ∀ o ∈ stack, o.kind ≠ .missing) (ht : t.kind ≠ .missing) :
    Settled (output.push t) stack := by
  refine ⟨h, ?_⟩
  intro o ho hmissing
  rw [Array.toList_push, List.getLast?_append] at ho
  cases ho
  exact absurd hmissing ht

/-- Whatever goes out, a token that waits for its operand may be on top. -/
theorem wait (h : ∀ o ∈ stack, o.kind ≠ .missing) (ht : t.kind ≠ .missing)
    (ho : t.kind ≠ .opening) : Settled output (t :: stack) :=
  ⟨List.forall_mem_cons.mpr ⟨ht, h⟩, fun _ _ _ => ⟨t, List.mem_cons_self, ho⟩⟩

theorem open_group (h : Settled output stack) (ht : t.kind ≠ .missing) :
    Settled output (t :: stack) := by
  refine ⟨List.forall_mem_cons.mpr ⟨ht, h.written⟩, ?_⟩
  intro o ho hmissing
  obtain ⟨j, hj, hne⟩ := h.joined o ho hmissing
  exact ⟨j, List.mem_cons_of_mem t hj, hne⟩

theorem popped (h : Settled output (ops ++ rest)) : Settled (output ++ ops.toArray) rest := by
  refine ⟨fun o ho => h.written o (List.mem_append_right ops ho), ?_⟩
  intro o ho hmissing
  by_cases hops : ops = []
  · subst hops
    rw [Array.toList_append, List.append_nil] at ho
    exact h.joined o ho hmissing
  · obtain ⟨op, hop, hlast⟩ := exists_mem_of_getLast?_append output hops
    rw [hlast] at ho
    cases ho
    exact absurd hmissing (h.written _ (List.mem_append_left rest hop))

theorem close {opener : Token} (h : Settled output (opener :: rest))
    (ho : opener.kind.opensGroup) : Settled (output ++ (callOf opener).toArray) rest := by
  unfold callOf
  by_cases hc : opener.kind = .call
  · rw [if_pos hc]
    exact popped h
  · rw [if_neg hc]
    have hopening : opener.kind = .opening := by
      cases hk : opener.kind <;> simp_all [TokenKind.opensGroup]
    refine ⟨fun o ho => h.written o (List.mem_cons_of_mem opener ho), ?_⟩
    intro o ho hmissing
    rw [Array.toList_append, List.append_nil] at ho
    obtain ⟨j, hj, hne⟩ := h.joined o ho hmissing
    rcases List.mem_cons.mp hj with rfl | hj
    · exact absurd hopening hne
    · exact ⟨j, hj, hne⟩

/-- A placeholder goes out where its token waits. -/
theorem filled {p : Token} (h : Settled s.output s.stack) (hp : s.previous = some p)
    (htop : d.expectsOperand s.previous → s.stack.head? = s.previous) (ho : p.kind ≠ .opening) :
    Settled (s.filled d) s.stack := by
  unfold Polish.filled
  by_cases he : d.expectsOperand s.previous
  · rw [if_pos he]
    obtain ⟨rest, hstack⟩ := List.head?_eq_some_iff.mp ((htop he).trans hp)
    exact ⟨h.written, fun _ _ _ => ⟨p, by simp [hstack], ho⟩⟩
  · rw [if_neg he]
    exact h

end Settled

/-- What holds behind every written token. -/
structure Sound (d : Dialect) (s : Polish) : Prop where
  settled : Settled s.output s.stack
  top : d.expectsOperand s.previous → s.stack.head? = s.previous

theorem Sound.step (h : Sound d s) (hstep : Step d s t s') (ht : t.kind ≠ .missing) :
    Sound d s' := by
  refine ⟨?_, fun he => ?_⟩
  swap
  · rw [hstep.previous_eq] at he ⊢
    exact hstep.head?_stack he
  have hsettled := h.settled
  cases hstep with
  | operand hk => exact .push hsettled.written ht
  | opening hk => exact hsettled.open_group ht
  | call hk => exact .wait hsettled.written ht (by simp [hk])
  | before hk hb => exact .wait hsettled.written ht (by simp [hk])
  | after hk hb hs hops =>
    rw [hs] at hsettled
    exact .push hsettled.popped.written ht
  | binary hk hs hops =>
    rw [hs] at hsettled
    refine .wait hsettled.popped.written ht ?_
    cases hk' : t.kind <;> simp_all [TokenKind.isBinary]
  | @closing ops rest opener hk hs hops ho =>
    have hclosed : Settled (s.closedOff d) s.stack := by
      unfold closedOff
      by_cases hempty : s.previous.any (·.kind == .opening)
      · rw [if_pos hempty]
        exact hsettled
      · rw [if_neg hempty]
        cases hp : s.previous with
        | none =>
          have htop := h.top
          rw [hp, hs] at htop
          simp [Dialect.expectsOperand] at htop
        | some p => exact hsettled.filled hp h.top (by simpa [hp] using hempty)
    rw [hs] at hclosed
    have hclose := hclosed.popped.close ho
    simpa using hclose

theorem Sound.run (h : Sound d s) (hts : ∀ t ∈ ts, t.kind ≠ .missing) (hrun : run d s ts = .ok s') :
    Sound d s' := by
  induction ts generalizing s with
  | nil =>
    cases hrun
    exact h
  | cons t ts ih =>
    obtain ⟨s₁, h₁, hrun₁⟩ := step_of_run_cons hrun
    obtain ⟨ht, hts⟩ := List.forall_mem_cons.mp hts
    exact ih (h.step h₁ ht) hts hrun₁

theorem sound_start (d : Dialect) : Sound d start :=
  ⟨⟨by simp [start], by simp [start]⟩, fun _ => rfl⟩

/-- A placeholder does not go out last. -/
theorem getLast?_of_ofTokens {polish : List Token} (hts : ∀ t ∈ ts, t.kind ≠ .missing)
    (h : ofTokens d ts = .ok polish) (ht : polish.getLast? = some t) : t.kind ≠ .missing := by
  obtain ⟨s, output, hrun, hf, rfl⟩ := run_of_ofTokens h
  have hsound := (sound_start d).run hts hrun
  have hgroups := groups_of_finish hf
  intro hmissing
  cases hp : s.previous with
  | none =>
    rw [previous_of_run hrun] at hp
    cases ts with
    | nil =>
      cases hrun
      cases hf
      cases ht
    | cons u ts => simp at hp
  | some p =>
    rw [finish_of_groups hgroups (by simp [hp])] at hf
    have hwaits := groups_eq_nil_iff.mp hgroups
    have hopening : p.kind ≠ .opening := by
      intro hk
      have htop := hsound.top (by simp [hp, Dialect.expectsOperand, hk])
      rw [hp] at htop
      have hwait := hwaits p (List.mem_of_head? htop)
      simp [waits, hk, TokenKind.opensGroup] at hwait
    have hfilled := hsound.settled.filled hp hsound.top hopening
    rw [← List.append_nil s.stack] at hfilled
    have hlast := hfilled.popped
    rw [Except.ok.inj hf] at hlast
    obtain ⟨j, hj, -⟩ := hlast.joined t ht hmissing
    cases hj

end Polish

/-- The root of the tree of a text is no placeholder. -/
theorem isMissing_of_parse {source : String} {p : Parsed} (h : d.parse source = .ok p) :
    ¬ p.tree.isMissing := by
  obtain ⟨htokens, hpolish, htree⟩ := parse_eq_ok h
  have hwritten : ∀ t ∈ p.tokens, t.kind ≠ .missing := by
    intro t ht
    rw [htokens] at ht
    exact Dialect.kind_of_mem_tokens ht
  have hroot := Polish.getLast?_of_ofTokens hwritten hpolish (Tree.getLast?_of_ofPolish htree)
  simpa [Tree.isMissing, Token.isMissing] using hroot

end Reckon
