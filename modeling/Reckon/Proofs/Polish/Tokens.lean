import Reckon.Proofs.Polish.Steps
import Reckon.Proofs.Tree

/-!
# The tokens of trees and faults

Parsing makes no tokens but placeholders: what holds of these and of all tokens of a text holds
everywhere in its tree, and everywhere in the fault if there is no tree (`parse_all`).
-/

namespace Reckon

variable {P : Token → Prop} {d : Dialect} {t : Token} {ts : List Token}

/-! ## Trees -/

namespace Tree

/-- Every token of the tree has the property. -/
def All (P : Token → Prop) : Tree → Prop
  | leaf t => P t
  | node t l r => P t ∧ l.All P ∧ r.All P

theorem All.token {u : Tree} (h : u.All P) : P u.token := by
  cases u with
  | leaf t => exact h
  | node t l r => exact h.1

/-- The property holds throughout each subtree, and of the token above it. -/
theorem All.of_mem_visitsOnto {u : Tree} {parent : Option Token} {v : Visit} (h : u.All P)
    (hparent : ∀ p ∈ parent, P p) (hv : v ∈ u.visitsOnto parent []) :
    v.tree.All P ∧ ∀ p ∈ v.parent, P p := by
  induction u generalizing parent with
  | leaf t =>
    rw [mem_visitsOnto_leaf.mp hv]
    exact ⟨h, hparent⟩
  | node t l r ihl ihr =>
    have hself : ∀ p ∈ some t, P p := fun p hp => Option.mem_some_iff.mp hp ▸ h.1
    rcases mem_visitsOnto_node.mp hv with hv | hv | rfl
    · exact ihl h.2.1 hself hv
    · exact ihr h.2.2 hself hv
    · exact ⟨h, hparent⟩

theorem All.of_mem_visits {u : Tree} {v : Visit} (h : u.All P) (hv : v ∈ u.visits) :
    v.tree.All P := by
  have hnone : ∀ p ∈ (none : Option Token), P p := by simp
  exact (h.of_mem_visitsOnto hnone hv).1

theorem all_shift {stack : List Tree} (hs : ∀ u ∈ stack, u.All P) (ht : P t) :
    ∀ u ∈ shift stack t, u.All P := by
  unfold shift
  split
  · rename_i right left below
    obtain ⟨hright, hs⟩ := List.forall_mem_cons.mp hs
    obtain ⟨hleft, hs⟩ := List.forall_mem_cons.mp hs
    split
    · exact List.forall_mem_cons.mpr ⟨ht,
        List.forall_mem_cons.mpr ⟨hright, List.forall_mem_cons.mpr ⟨hleft, hs⟩⟩⟩
    · exact List.forall_mem_cons.mpr ⟨⟨ht, hleft, hright⟩, hs⟩
  · exact List.forall_mem_cons.mpr ⟨ht, hs⟩

theorem all_foldl_shift {stack : List Tree} (hs : ∀ u ∈ stack, u.All P) (hts : ∀ t ∈ ts, P t) :
    ∀ u ∈ ts.foldl shift stack, u.All P := by
  induction ts generalizing stack with
  | nil => exact hs
  | cons t ts ih =>
    obtain ⟨ht, hts⟩ := List.forall_mem_cons.mp hts
    exact ih (all_shift hs ht) hts

end Tree

/-! ## Faults -/

/-- Every token that the fault tells of has the property. -/
def Fault.All (P : Token → Prop) : Fault → Prop
  | unmatchedClose close _ => P close
  | unclosedGroup opener _ => P opener
  | unclosedCall call _ => P call
  | residual operands => ∀ u ∈ operands, u.All P
  | empty => True

theorem Tree.all_ofPolish (hts : ∀ t ∈ ts, P t) :
    (∀ u, ofPolish ts = .ok u → u.All P) ∧ ∀ f, ofPolish ts = .error f → f.All P := by
  have hall : ∀ u ∈ ts.foldl shift [], u.All P := all_foldl_shift (by simp) hts
  unfold ofPolish
  split
  · exact ⟨fun u h => (nomatch h), fun f h => Except.error.inj h ▸ trivial⟩
  · rename_i u hu
    rw [hu] at hall
    refine ⟨fun u' h => ?_, fun f h => nomatch h⟩
    rw [← Except.ok.inj h]
    exact hall u List.mem_cons_self
  · refine ⟨fun u h => (nomatch h), fun f h => ?_⟩
    rw [← Except.error.inj h]
    exact fun u hu => hall u (List.mem_reverse.mp hu)

namespace Polish

variable {s s' : Polish}

/-- Every token that has gone out or waits has the property. -/
structure All (P : Token → Prop) (s : Polish) : Prop where
  output : ∀ t ∈ s.output, P t
  stack : ∀ t ∈ s.stack, P t

theorem all_start (P : Token → Prop) : All P start := ⟨by simp [start], by simp [start]⟩

theorem All.filled (h : s.All P) (hp : P .placeholder) : ∀ t ∈ s.filled d, P t := by
  rw [Polish.filled]
  split
  · intro t ht
    rcases Array.mem_push.mp ht with ht | rfl
    · exact h.output t ht
    · exact hp
  · exact h.output

theorem forall_mem_append {output : Array Token} {ops : List Token} (h : ∀ t ∈ output, P t)
    (hops : ∀ t ∈ ops, P t) : ∀ t ∈ output ++ ops.toArray, P t := by
  intro t ht
  rcases Array.mem_append.mp ht with ht | ht
  · exact h t ht
  · exact hops t (List.mem_toArray.mp ht)

theorem forall_mem_push {output : Array Token} (h : ∀ t ∈ output, P t) (ht : P t) :
    ∀ u ∈ output.push t, P u := by
  intro u hu
  rcases Array.mem_push.mp hu with hu | rfl
  · exact h u hu
  · exact ht

theorem All.step (h : s.All P) (hp : P .placeholder) (hstep : Step d s t s') (ht : P t) :
    s'.All P := by
  have hstack := h.stack
  cases hstep with
  | operand hk => exact ⟨forall_mem_push h.output ht, hstack⟩
  | opening hk => exact ⟨h.output, List.forall_mem_cons.mpr ⟨ht, hstack⟩⟩
  | call hk => exact ⟨forall_mem_push h.output hp, List.forall_mem_cons.mpr ⟨ht, hstack⟩⟩
  | before hk hb => exact ⟨forall_mem_push h.output hp, List.forall_mem_cons.mpr ⟨ht, hstack⟩⟩
  | after hk hb hs hops =>
    rw [hs, List.forall_mem_append] at hstack
    exact ⟨forall_mem_push (forall_mem_push (forall_mem_append (h.filled hp) hstack.1) hp) ht,
      hstack.2⟩
  | binary hk hs hops =>
    rw [hs, List.forall_mem_append] at hstack
    exact ⟨forall_mem_append (h.filled hp) hstack.1, List.forall_mem_cons.mpr ⟨ht, hstack.2⟩⟩
  | @closing ops rest opener hk hs hops ho =>
    rw [hs, List.forall_mem_append, List.forall_mem_cons] at hstack
    obtain ⟨hall, hopener, hrest⟩ := hstack
    have hclosed : ∀ t ∈ s.closedOff d, P t := by
      rw [closedOff]
      split
      · exact h.output
      · exact h.filled hp
    have hcall : ∀ t ∈ callOf opener, P t := by
      rw [callOf]
      split
      · simpa using hopener
      · simp
    exact ⟨forall_mem_append hclosed (List.forall_mem_append.mpr ⟨hall, hcall⟩), hrest⟩

/-- The run keeps the property; it ends early at a closing parenthesis of the text. -/
theorem All.run (h : s.All P) (hp : P .placeholder) (hts : ∀ t ∈ ts, P t) :
    (∀ s', run d s ts = .ok s' → s'.All P) ∧ ∀ f, run d s ts = .error f → f.All P := by
  induction ts generalizing s with
  | nil => exact ⟨fun s' hrun => Except.ok.inj hrun ▸ h, fun f hrun => nomatch hrun⟩
  | cons t ts ih =>
    obtain ⟨ht, hts⟩ := List.forall_mem_cons.mp hts
    rcases step_or_stray d s t with ⟨s₁, hstep⟩ | ⟨hk, hstray⟩
    · rw [run_cons_of_step hstep]
      exact ih (h.step hp hstep ht) hts
    · rw [run_cons, push_stray hk hstray]
      exact ⟨fun s' hrun => (nomatch hrun), fun f hrun => Except.error.inj hrun ▸ ht⟩

/-- What goes out at the end has waited, or else a group was open. -/
theorem all_popAll {output : Array Token} {stack : List Token} (h : ∀ t ∈ output, P t)
    (hs : ∀ t ∈ stack, P t) : (∀ out, popAll d output stack = .ok out → ∀ t ∈ out, P t) ∧
      ∀ f, popAll d output stack = .error f → f.All P := by
  rcases waits_or_exists_opener stack with hwaits | ⟨ops, opener, rest, rfl, hops, ho⟩
  · rw [popAll_waiting hwaits]
    exact ⟨fun out hout => Except.ok.inj hout ▸ forall_mem_append h hs, fun f hf => nomatch hf⟩
  · rw [popAll_unclosed hops ho]
    refine ⟨fun out hout => (nomatch hout), fun f hf => ?_⟩
    have hopener : P opener := hs opener (by simp)
    rw [← Except.error.inj hf, unclosed]
    split <;> exact hopener

theorem All.finish (h : s.All P) (hp : P .placeholder) :
    (∀ out, s.finish d = .ok out → ∀ t ∈ out, P t) ∧ ∀ f, s.finish d = .error f → f.All P := by
  refine all_popAll ?_ h.stack
  split
  · exact h.filled hp
  · exact h.output

theorem All.ending (h : s.All P) (hp : P .placeholder) (hts : ∀ t ∈ ts, P t) :
    (∀ out, ending d s ts = .ok out → ∀ t ∈ out, P t) ∧ ∀ f, ending d s ts = .error f → f.All P := by
  obtain ⟨hok, herror⟩ := h.run (d := d) hp hts
  unfold Polish.ending
  cases hrun : Polish.run d s ts with
  | error f => exact ⟨fun out h => (nomatch h), fun f' h => Except.error.inj h ▸ herror f hrun⟩
  | ok s' => exact (hok s' hrun).finish hp

theorem all_ofTokens (hp : P .placeholder) (hts : ∀ t ∈ ts, P t) :
    (∀ polish, ofTokens d ts = .ok polish → ∀ t ∈ polish, P t) ∧
      ∀ f, ofTokens d ts = .error f → f.All P := by
  obtain ⟨hout, hfault⟩ := (all_start P).ending (d := d) hp hts
  rw [ofTokens_eq_ending]
  cases hend : ending d start ts with
  | error f => exact ⟨fun polish h => (nomatch h), fun f' h => Except.error.inj h ▸ hfault f hend⟩
  | ok out =>
    refine ⟨fun polish h => ?_, fun f h => nomatch h⟩
    rw [← Except.ok.inj h]
    exact fun t ht => hout out hend t (Array.mem_toList_iff.mp ht)

end Polish

/-- What holds of placeholders and of all tokens of a text holds of all tokens of its tree, or of
its fault. -/
theorem parse_all {source : String} (hp : P .placeholder) (hts : ∀ t ∈ d.tokens source, P t) :
    (∀ p, d.parse source = .ok p → p.tree.All P) ∧ ∀ f, d.parse source = .error f → f.All P := by
  obtain ⟨hpolish, hfault⟩ := Polish.all_ofTokens (d := d) hp hts
  constructor
  · intro p h
    obtain ⟨htokens, hout, htree⟩ := parse_eq_ok h
    rw [htokens] at hout
    exact (Tree.all_ofPolish (hpolish _ hout)).1 _ htree
  · intro f h
    simp only [Dialect.parse, bind, Except.bind] at h
    cases hout : Polish.ofTokens d (d.tokens source) with
    | error f' =>
      rw [hout] at h
      exact Except.error.inj h ▸ hfault f' hout
    | ok polish =>
      rw [hout] at h
      dsimp only at h
      cases htree : Tree.ofPolish polish with
      | error f' =>
        rw [htree] at h
        exact Except.error.inj h ▸ (Tree.all_ofPolish (hpolish _ hout)).2 f' htree
      | ok tree =>
        rw [htree] at h
        cases h

end Reckon
