import Mathlib
import Reckon.Proofs.Polish.Hanging
import Reckon.Proofs.Standard

/-!
# The looseness of separators

The priority of separators lies one step below the lowest one that is declared, as far as
priorities reach.  If no operator has the lowest priority of all, separators bind looser than every
operator, and then no operator ever takes a separator off the stack.
-/

namespace Reckon

open Polish

variable {d : Dialect} {t : Token}

namespace Dialect

/-! ## Priorities -/

/-- Separators bind looser than whatever is declared, unless a priority is the lowest of all. -/
theorem separatorPriority_lt (hlow : ∀ q ∈ d.priorities, lowestPriority < q) {q : Int}
    (hq : q ∈ d.priorities) : d.separatorPriority < q := by
  obtain ⟨least, hleast⟩ := Option.isSome_iff_exists.mp (List.isSome_min?_of_mem hq)
  have hle := (List.min?_eq_some_iff.mp hleast).2 q hq
  have hlow := hlow q hq
  rw [separatorPriority, hleast, Option.getD_some]
  omega

/-- A separator never binds looser than the lowest priority of all. -/
theorem lowestPriority_le (d : Dialect) : lowestPriority ≤ d.separatorPriority :=
  Int.le_max_right _ _

theorem priority_mem_of_operator? {name : String} {op : Operator}
    (h : d.operator? name = some op) : op.priority.toInt ∈ d.priorities :=
  List.mem_append_left _ (List.mem_map_of_mem (List.mem_of_find?_eq_some h))

theorem priority_mem_of_unary? {name : String} {op : UnaryOperator}
    (h : d.unary? name = some op) : op.priority.toInt ∈ d.priorities :=
  List.mem_append_right _ (List.mem_map_of_mem (List.mem_of_find?_eq_some h))

/-- Then every operator that is declared binds tighter than separators. -/
theorem Declares.binds (hlow : ∀ q ∈ d.priorities, lowestPriority < q) (h : d.Declares t)
    (hk : t.kind = .operator ∨ t.kind = .unary) : d.Binds t := by
  refine ⟨hk, ?_⟩
  rcases hk with hk | hk
  · obtain ⟨op, hop⟩ := Option.isSome_iff_exists.mp (h.1 hk)
    rw [rank, hk]
    simp only [hop]
    exact separatorPriority_lt hlow (priority_mem_of_operator? hop)
  · obtain ⟨op, hop⟩ := Option.isSome_iff_exists.mp (h.2 hk)
    rw [rank, hk]
    simp only [hop]
    exact separatorPriority_lt hlow (priority_mem_of_unary? hop)

end Dialect

namespace Polish

variable {s s' : Polish}

/-! ## Separators that wait -/

/-- The separators on a stack. -/
def separators (stack : List Token) : List Token := stack.filter (·.kind == .separator)

theorem separators_append_of_yields {ops : List Token}
    (ht : d.Binds t ∨ t.kind = .separator) (hops : ∀ o ∈ ops, yields d (d.rank t) o)
    (rest : List Token) : separators (ops ++ rest) = separators rest := by
  have hnil : ops.filter (·.kind == .separator) = [] := by
    rw [List.filter_eq_nil_iff]
    intro o ho hk
    exact not_yields_of_separator (eq_of_beq hk) ht (hops o ho)
  rw [separators, List.filter_append, hnil, List.nil_append, separators]

/-- An operator that binds tighter than separators leaves those that wait where they are. -/
theorem Step.separators_eq (h : Step d s t s') (ht : d.Binds t) :
    separators s'.stack = separators s.stack := by
  have hkind := ht.1
  have hcons : ∀ stack, separators (t :: stack) = separators stack := by
    intro stack
    rcases hkind with hk | hk <;> simp [separators, hk]
  cases h with
  | operand hk => rfl
  | opening hk => simp [hk] at hkind
  | call hk => simp [hk] at hkind
  | before hk hb => exact hcons _
  | after hk hb hs hops =>
    rw [hs, separators_append_of_yields (.inl ht) hops.1]
  | binary hk hs hops =>
    rw [hs, separators_append_of_yields (.inl ht) hops.1, hcons]
  | closing hk hs hops ho => simp [hk] at hkind

/-! ## Two arguments -/

section TwoArguments

variable {f a sep b op c close : Token}

/-- An operator in the second argument of a call stays there. -/
theorem ofTokens_secondArgument (hf : f.kind = .call) (ha : a.kind.isOperand)
    (hs : sep.kind = .separator) (hb : b.kind.isOperand) (hop : op.kind = .operator)
    (hbinds : d.Binds op) (hc : c.kind.isOperand) (hclose : close.kind = .closing) :
    ofTokens d [f, a, sep, b, op, c, close] = .ok [.placeholder, a, b, c, op, sep, f] := by
  have hgroup : f.kind.opensGroup := by rw [hf]; rfl
  have hstay : SplitsAt (yields d (d.rank op)) [] [sep, f] := by
    refine ⟨by simp, ?_⟩
    rintro o ⟨⟩
    exact not_yields_of_separator hs (.inl hbinds)
  have hshield : SplitsAt (yields d (d.rank sep)) [] [f] := by
    refine ⟨by simp, ?_⟩
    rintro o ⟨⟩
    simp [yields, hgroup]
  have hends : ∀ {t : Token}, t.kind.isOperand → ¬ d.expectsOperand (some t) := by
    intro t hk
    simp [expectsOperand_some, (starts_of_isOperand (d := d) hk).2]
  have hbinary : sep.kind.isBinary ∧ op.kind.isBinary := by rw [hs, hop]; exact ⟨rfl, rfl⟩
  have hwaits : ∀ o ∈ [op, sep], waits o := by
    simp [waits, hs, hop, TokenKind.opensGroup]
  have hstack : [op, sep, f] = [op, sep] ++ f :: [] := rfl
  have hrun : run d start [f, a, sep, b, op, c, close] =
      .ok ⟨#[.placeholder, a, b, c, op, sep, f], [], some close⟩ := by
    rw [run_cons_of_step (.call hf), run_cons_of_step (.operand ha),
      run_cons_of_step (.binary hbinary.1 rfl hshield), run_cons_of_step (.operand hb),
      run_cons_of_step (.binary hbinary.2 rfl hstay), run_cons_of_step (.operand hc),
      run_cons_of_step (.closing hclose hstack hwaits hgroup)]
    simp [closedOff, Polish.filled, hends ha, hends hb, hends hc, callOf, hf, run]
    rfl
  rw [ofTokens_of_run_ok hrun]
  simp [finish, Polish.filled, Dialect.expectsOperand, hclose, popAll, Except.map]

/-- The tree of a call with two arguments, the second of them made by an operator. -/
theorem ofPolish_secondArgument (hf : f.kind = .call) (ha : a.kind.isOperand)
    (hs : sep.kind = .separator) (hb : b.kind.isOperand) (hop : op.kind = .operator)
    (hc : c.kind.isOperand) : Tree.ofPolish [.placeholder, a, b, c, op, sep, f] =
      .ok (.node f (.leaf .placeholder) (.node sep (.leaf a) (.node op (.leaf b) (.leaf c)))) := by
  have hjoint : ¬ op.kind.isOperand ∧ ¬ sep.kind.isOperand ∧ ¬ f.kind.isOperand := by
    simp [hop, hs, hf, TokenKind.isOperand]
  obtain ⟨hop', hs', hf'⟩ := hjoint
  have hroot : [.placeholder, a, b, c, op, sep, f].foldl Tree.shift [] =
      [.node f (.leaf .placeholder) (.node sep (.leaf a) (.node op (.leaf b) (.leaf c)))] := by
    simp only [List.foldl_cons, List.foldl_nil, shift_placeholder, shift_operand ha,
      shift_operand hb, shift_operand hc, shift_joint hop', shift_joint hs', shift_joint hf']
  unfold Tree.ofPolish
  rw [hroot]

theorem arguments_secondArgument (hs : sep.kind = .separator) (hop : op.kind = .operator)
    (left l r : Tree) (first : Tree) :
    (Tree.node f left (.node sep first (.node op l r))).arguments = [first, .node op l r] := by
  have hmissing : ¬ (Tree.node sep first (.node op l r)).isMissing := by
    simp [Tree.isMissing, Tree.token, Token.isMissing, hs]
  rw [Tree.arguments, if_neg hmissing, Tree.chain, if_pos hs, Tree.chain_of_ne_separator]
  simp [Tree.kind, Tree.token, hop]

end TwoArguments

/-! ## The law -/

/-- **The looseness of separators.**  Separators bind looser than every declared operator exactly if
no priority is the lowest of all.  Then no operator takes a separator off the stack, and a call
keeps its two arguments whichever operator the second one is made with. -/
theorem separators_loosest (d : Dialect) :
    ((∀ q ∈ d.priorities, d.separatorPriority < q) ↔
      ∀ q ∈ d.priorities, Dialect.lowestPriority < q) ∧
    ((∀ q ∈ d.priorities, Dialect.lowestPriority < q) →
      (∀ (s s' : Polish) (t : Token), d.Declares t → t.kind = .operator ∨ t.kind = .unary →
        push d s t = .ok s' → separators s'.stack = separators s.stack) ∧
      ∀ f a sep b op c close : Token, f.kind = .call → a.kind.isOperand → sep.kind = .separator →
        b.kind.isOperand → op.kind = .operator → d.Declares op → c.kind.isOperand →
        close.kind = .closing → ∃ polish tree,
          ofTokens d [f, a, sep, b, op, c, close] = .ok polish ∧ Tree.ofPolish polish = .ok tree ∧
          tree.token = f ∧ tree.arguments = [.leaf a, .node op (.leaf b) (.leaf c)]) := by
  refine ⟨⟨fun h q hq => ?_, fun h q hq => Dialect.separatorPriority_lt h hq⟩, fun hlow => ⟨?_, ?_⟩⟩
  · have hlt := h q hq
    have hle := d.lowestPriority_le
    omega
  · intro s s' t ht hk hpush
    exact (step_of_push hpush).separators_eq (ht.binds hlow hk)
  · intro f a sep b op c close hf ha hs hb hop hdeclares hc hclose
    have hbinds := hdeclares.binds hlow (.inl hop)
    refine ⟨_, _, ofTokens_secondArgument hf ha hs hb hop hbinds hc hclose,
      ofPolish_secondArgument hf ha hs hb hop hc, rfl, ?_⟩
    exact arguments_secondArgument hs hop _ _ _ _

/-- The usual spelling with a sum of some priority as its only operator. -/
def sumSpec (priority : Int32) : Dialect.Spec :=
  { Dialect.Spec.bare with operators := [⟨"+", priority, true⟩] }

def sumDialect (priority : Int32) : Dialect :=
  { Dialect.standard with operators := [⟨"+", priority, true⟩], unaries := [] }

/-- A sum whose priority is one above the lowest of all stays in the second argument. -/
theorem separators_loosest_in_call :
    Dialect.build (sumSpec (-2147483647)) = .ok (sumDialect (-2147483647)) ∧
      (sumDialect (-2147483647)).separatorPriority = Dialect.lowestPriority ∧
      ∃ f a sep b op c close : Token, [f, a, sep, b, op, c, close].map (·.text) =
          ["f", "1", ",", "2", "+", "3", ")"] ∧
        ∃ polish tree, ofTokens (sumDialect (-2147483647)) [f, a, sep, b, op, c, close] =
            .ok polish ∧
          Tree.ofPolish polish = .ok tree ∧
          tree.arguments = [.leaf a, .node op (.leaf b) (.leaf c)] := by
  have hlow : ∀ q ∈ (sumDialect (-2147483647)).priorities, Dialect.lowestPriority < q := by decide
  refine ⟨rfl, by decide, ⟨.call, "f", some 0⟩, ⟨.literal, "1", some 2⟩, ⟨.separator, ",", some 3⟩,
    ⟨.literal, "2", some 4⟩, ⟨.operator, "+", some 5⟩, ⟨.literal, "3", some 6⟩,
    ⟨.closing, ")", some 7⟩, rfl, ?_⟩
  obtain ⟨-, hcall⟩ := (separators_loosest _).2 hlow
  obtain ⟨polish, tree, hpolish, htree, -, harguments⟩ :=
    hcall ⟨.call, "f", some 0⟩ ⟨.literal, "1", some 2⟩ ⟨.separator, ",", some 3⟩
      ⟨.literal, "2", some 4⟩ ⟨.operator, "+", some 5⟩ ⟨.literal, "3", some 6⟩
      ⟨.closing, ")", some 7⟩ rfl rfl rfl rfl rfl ⟨fun _ => rfl, fun h => nomatch h⟩ rfl rfl
  exact ⟨polish, tree, hpolish, htree, harguments⟩

/-- Below the lowest priority there is none for separators: a sum of that priority takes the whole
list of arguments as its left operand. -/
theorem separators_not_loosest :
    Dialect.build (sumSpec Int32.minValue) = .ok (sumDialect Int32.minValue) ∧
      (¬ ∀ q ∈ (sumDialect Int32.minValue).priorities,
        (sumDialect Int32.minValue).separatorPriority < q) ∧
      ∃ p, (sumDialect Int32.minValue).parse "f(1,2+3)" = .ok p ∧
        p.polish.map (·.text) = ["", "1", "2", ",", "3", "+", "f"] ∧
        p.tree.arguments.length = 1 := by
  refine ⟨rfl, by decide, _, by cbv, rfl, rfl⟩

end Polish

end Reckon
