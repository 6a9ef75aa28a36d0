import Reckon.Proofs.Polish.Grammar
import Reckon.Proofs.Polish.Language
import Reckon.Proofs.Polish.Operands
import Reckon.Proofs.Standard

/-!
# Conversion climbs precedences

The conversion to reverse Polish order builds the tree of precedence climbing.  Two halves: climbing
succeeds on every expression of the grammar, and wherever it succeeds the conversion does the same
(`Reads`).  In between, what climbing keeps in its calls lies on the stack: the operators that are
pending in the calls under way, each with its left operand on the working stack.
-/

namespace Reckon

open Polish

variable {d : Dialect} {c n t : Token}

namespace Climbing

variable {s s₀ s₁ s₂ : Polish} {ts rest : List Token} {tree left : Tree} {pending : Option Token}
  {fuel : Nat}

/-! ## Simulation -/

/-- Whatever climbing reads with this much fuel, the conversion reads as well. -/
structure Simulates (d : Dialect) (fuel : Nat) : Prop where
  climb {s : Polish} {pending : Option Token} {ts rest : List Token} {tree : Tree}
    (htop : OnTop d s.stack pending) (h : climb d fuel pending ts = some (tree, rest)) :
    ∃ s', Follows d s ts rest s' ∧ Reads d s s' tree rest ∧ Stops d pending rest
  operand (s : Polish) {ts rest : List Token} {tree : Tree} (h : operand d fuel ts = some (tree, rest)) :
    ∃ s', Follows d s ts rest s' ∧ Reads d s s' tree rest
  absorb {s s₁ : Polish} {pending : Option Token} {ts rest : List Token} {left tree : Tree}
    (hread : Reads d s s₁ left ts) (htop : OnTop d s.stack pending)
    (h : absorb d fuel pending left ts = some (tree, rest)) :
    ∃ s', Follows d s₁ ts rest s' ∧ Reads d s s' tree rest ∧ Stops d pending rest

theorem cons_of_closed? {us : List Token} (h : closed? us = some rest) :
    ∃ close, us = close :: rest ∧ close.kind = .closing := by
  cases us with
  | nil => cases h
  | cons close us =>
    rw [closed?, Option.ite_none_right_eq_some] at h
    exact ⟨close, by rw [Option.some.inj h.2], h.1⟩

section Step

variable (ih : Simulates d fuel)
include ih

theorem Simulates.climb_succ (htop : OnTop d s.stack pending)
    (h : Climbing.climb d (fuel + 1) pending ts = some (tree, rest)) :
    ∃ s', Follows d s ts rest s' ∧ Reads d s s' tree rest ∧ Stops d pending rest := by
  rw [Climbing.climb] at h
  split at h
  · rename_i first rest₁ hfirst
    obtain ⟨s₁, hf₁, hread⟩ := ih.operand s hfirst
    obtain ⟨s₂, hf₂, hrest⟩ := ih.absorb hread htop h
    exact ⟨s₂, hf₁.trans hf₂, hrest⟩
  · cases h

theorem Simulates.before {right : Tree} (s : Polish) (hb : d.isBefore t)
    (h : Climbing.climb d fuel (some t) ts = some (right, rest)) :
    ∃ s', Follows d s (t :: ts) rest s' ∧ Reads d s s' (.node t nothing right) rest := by
  have hjoint : d.isJoint t := by simp [Dialect.isJoint, hb]
  obtain ⟨hstep, hforest⟩ := step_before s hb
  have htop : OnTop d (t :: s.stack) (some t) := ⟨hjoint, rfl⟩
  obtain ⟨s', hf, hread, hstop⟩ :=
    ih.climb (s := ⟨s.output.push .placeholder, t :: s.stack, some t⟩) htop h
  exact ⟨s', .cons hstep hf, hread.join hjoint rfl hforest rfl hstop⟩

theorem Simulates.group {inner : Tree} {us : List Token} (s : Polish) (hk : t.kind = .opening)
    (h : Climbing.climb d fuel none ts = some (inner, us)) (hclosed : closed? us = some rest) :
    ∃ s', Follows d s (t :: ts) rest s' ∧ Reads d s s' inner rest := by
  obtain ⟨close, rfl, hclose⟩ := cons_of_closed? hclosed
  have htop : OnTop d (t :: s.stack) none := by simp [OnTop, hk, TokenKind.opensGroup]
  obtain ⟨s₁, hf, hread, -⟩ := ih.climb (s := ⟨s.output, t :: s.stack, some t⟩) htop h
  obtain ⟨s', hstep, hlands⟩ := hread.endGroup hk hclose
  exact ⟨s', .cons (.opening hk) (hf.trans (.cons hstep (.refl _ _))), hlands.reads _⟩

theorem Simulates.call {inner : Tree} {us : List Token} (s : Polish) (hk : t.kind = .call)
    (h : Climbing.climb d fuel none ts = some (inner, us)) (hclosed : closed? us = some rest) :
    ∃ s', Follows d s (t :: ts) rest s' ∧ Reads d s s' (.node t nothing inner) rest := by
  obtain ⟨close, rfl, hclose⟩ := cons_of_closed? hclosed
  have htop : OnTop d (t :: s.stack) none := by simp [OnTop, hk, TokenKind.opensGroup]
  obtain ⟨s₁, hf, hread, -⟩ :=
    ih.climb (s := ⟨s.output.push .placeholder, t :: s.stack, some t⟩) htop h
  obtain ⟨s', hstep, hlands⟩ := hread.endCall hk hclose
  exact ⟨s', .cons (.call hk) (hf.trans (.cons hstep (.refl _ _))), hlands.reads _⟩

theorem Simulates.operand_succ (s : Polish)
    (h : Climbing.operand d (fuel + 1) ts = some (tree, rest)) :
    ∃ s', Follows d s ts rest s' ∧ Reads d s s' tree rest := by
  cases ts with
  | nil => simp [Climbing.operand] at h
  | cons t ts =>
    rw [Climbing.operand] at h
    cases hk : t.kind with
    | literal | identifier =>
      have hop : t.kind.isOperand := by rw [hk]; rfl
      rw [hk] at h
      cases h
      exact ⟨_, .cons (.operand hop) (.refl _ _), (lands_operand hop s).reads _⟩
    | operator | closing | separator | missing => simp [hk] at h
    | unary =>
      simp only [hk, Option.ite_none_right_eq_some, Option.map_eq_some_iff] at h
      obtain ⟨hb, ⟨right, us⟩, hclimb, heq⟩ := h
      cases heq
      exact ih.before s hb hclimb
    | opening =>
      simp only [hk, Option.bind_eq_bind, Option.bind_eq_some_iff, Option.pure_def] at h
      obtain ⟨⟨inner, us⟩, hclimb, _, hclosed, heq⟩ := h
      cases heq
      exact ih.group s hk hclimb hclosed
    | call =>
      rw [hk] at h
      dsimp only at h
      split at h
      · rename_i us hclosed
        cases h
        obtain ⟨close, rfl, hclose⟩ := cons_of_closed? hclosed
        obtain ⟨s', hstep, hlands⟩ := lands_bareCall s hk hclose
        exact ⟨s', .cons (.call hk) (.cons hstep (.refl _ _)), hlands.reads _⟩
      · simp only [Option.bind_eq_bind, Option.bind_eq_some_iff, Option.pure_def] at h
        obtain ⟨⟨inner, us⟩, hclimb, _, hclosed, heq⟩ := h
        cases heq
        exact ih.call s hk hclimb hclosed

theorem Simulates.absorb_succ (hread : Reads d s s₁ left ts) (htop : OnTop d s.stack pending)
    (h : Climbing.absorb d (fuel + 1) pending left ts = some (tree, rest)) :
    ∃ s', Follows d s₁ ts rest s' ∧ Reads d s s' tree rest ∧ Stops d pending rest := by
  cases ts with
  | nil =>
    cases h
    exact ⟨s₁, .refl _ _, hread, by simp [Stops]⟩
  | cons n ts =>
    rw [Climbing.absorb] at h
    split at h
    · cases h
      exact ⟨s₁, .refl _ _, hread, by simpa [Stops] using fun _ => ‹_›⟩
    rename_i hnot
    split at h
    · rename_i hn
      have hjoint : d.isJoint n := by simp [Dialect.isJoint, hn]
      obtain ⟨output, hstep, hforest⟩ := hread.step_between htop hn hnot
      split at h
      · rename_i right us hclimb
        have htop' : OnTop d (n :: s.stack) (some n) := ⟨hjoint, rfl⟩
        obtain ⟨s₂, hf, hright, hstop⟩ :=
          ih.climb (s := ⟨output, n :: s.stack, some n⟩) htop' hclimb
        obtain ⟨s', hf', hrest⟩ := ih.absorb (hright.join hjoint rfl hforest rfl hstop) htop h
        exact ⟨s', .cons hstep (hf.trans hf'), hrest⟩
      · cases h
    split at h
    · rename_i hn
      obtain ⟨s₂, hstep, hlands⟩ := hread.step_after htop hn hnot
      obtain ⟨s', hf, hrest⟩ := ih.absorb (hlands.reads _) htop h
      exact ⟨s', .cons hstep hf, hrest⟩
    · rename_i hb ha
      cases h
      exact ⟨s₁, .refl _ _, hread, by simp [Stops, isNext, hb, ha]⟩

end Step

theorem simulates (d : Dialect) (fuel : Nat) : Simulates d fuel := by
  induction fuel with
  | zero =>
    constructor
    · intro s pending ts rest tree htop h
      simp [climb] at h
    · intro s ts rest tree h
      simp [operand] at h
    · intro s s₁ pending ts rest left tree hread htop h
      simp [absorb] at h
  | succ fuel ih => exact ⟨ih.climb_succ, fun s => ih.operand_succ s, ih.absorb_succ⟩

/-- On a whole expression the conversion ends with its tree on the working stack. -/
theorem run_of_tree? (h : tree? d ts = some tree) :
    ∃ s, run d start ts = .ok s ∧ Reads d start s tree [] := by
  rw [tree?] at h
  split at h
  · rename_i tree' hclimb
    cases h
    have htop : OnTop d start.stack none := by simp [OnTop, start]
    obtain ⟨s, ⟨used, hused, hrun⟩, hread, -⟩ := (simulates d _).climb htop hclimb
    rw [List.append_nil] at hused
    exact ⟨s, by rw [hused, hrun], hread⟩
  · cases h

end Climbing

/-! ## The tree of an expression -/

/-- **The conversion climbs precedences.**  An expression of the grammar is converted, and the tree
that its reverse Polish order spells is the one that climbing makes of it. -/
theorem Polish.tree_eq_climbing {ts : List Token} (h : d.Infix ts) :
    ∃ polish tree, ofTokens d ts = .ok polish ∧ Climbing.tree? d ts = some tree ∧
      Tree.ofPolish polish = .ok tree := by
  obtain ⟨tree, htree⟩ := Climbing.exists_tree? h
  obtain ⟨s, hrun, hread⟩ := Climbing.run_of_tree? htree
  obtain ⟨polish, hpolish, hspells⟩ := hread.ofTokens_eq hrun
  exact ⟨polish, tree, hpolish, htree, hspells⟩

/-- In `-2^3!` the sign takes the whole power, and the factorial goes with the exponent. -/
theorem Polish.tree_of_signed_power :
    ∃ minus two power three bang : Token,
      [minus, two, power, three, bang].map (·.text) = ["-", "2", "^", "3", "!"] ∧
      Dialect.standard.Infix [minus, two, power, three, bang] ∧
      ∃ polish, ofTokens .standard [minus, two, power, three, bang] = .ok polish ∧
        Tree.ofPolish polish = .ok (.node minus Climbing.nothing
          (.node power (.leaf two) (.node bang (.leaf three) Climbing.nothing))) := by
  let minus : Token := ⟨.unary, "-", some 0⟩
  let two : Token := ⟨.literal, "2", some 1⟩
  let power : Token := ⟨.operator, "^", some 2⟩
  let three : Token := ⟨.literal, "3", some 3⟩
  let bang : Token := ⟨.unary, "!", some 4⟩
  have hsign : Dialect.standard.isBefore minus := by decide
  have hpower : Dialect.standard.isBetween power := by decide
  have hbang : Dialect.standard.isAfter bang := by decide
  have hleft : Dialect.standard.Item ([minus] ++ ([two] ++ [])) :=
    .mk (by simpa using hsign) (.atom (.inl rfl)) (by simp)
  have hright : Dialect.standard.Item ([] ++ ([three] ++ [bang])) :=
    .mk (by simp) (.atom (.inl rfl)) (by simpa using hbang)
  have hts : Dialect.standard.Infix [minus, two, power, three, bang] :=
    .more hleft hpower (.last hright)
  refine ⟨minus, two, power, three, bang, rfl, hts, ?_⟩
  obtain ⟨polish, tree, hpolish, htree, hspells⟩ := tree_eq_climbing hts
  have hclimbs : Climbing.tree? .standard [minus, two, power, three, bang] =
      some (.node minus Climbing.nothing
        (.node power (.leaf two) (.node bang (.leaf three) Climbing.nothing))) := by rfl
  rw [hclimbs] at htree
  exact ⟨polish, hpolish, by rw [hspells, Option.some.inj htree]⟩

end Reckon
