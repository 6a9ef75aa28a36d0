import Reckon.Proofs.RoundTrip.Expr
import Reckon.Proofs.Tree
import Reckon.Check.Arguments
import Reckon.Check.Operands
import Reckon.Check.Separators

/-!
# Trees of expressions

When the subtrees render the operands of an expression, the tree above them renders the expression:
it is written in the same way, and the checks of operands, arguments and separators pass on it.
-/

namespace Reckon

open Reckon.Tree

variable {e l r : Expr} {es : List Expr} {t tl tr : Tree} {token : Token}

/-! ## What the checks ask of a node -/

/-- What the checks of operands, arguments and separators ask of a visit. -/
structure Tree.Visit.Passes (v : Visit) : Prop where
  operand : ∀ u ∈ OperandUse.ofNode? .standard v.tree, u.lack = none
  arguments : v.tree.kind = .call → EmptyArguments.placesFrom 0 v.tree.arguments = []
  separator : v.tree.kind = .separator → SeparatorUse.isValid ⟨v.tree.token, v.parent⟩

/-- All checks pass in a tree below `parent`. -/
def Tree.PassesBelow (t : Tree) (parent : Option Token) : Prop :=
  ∀ v ∈ t.visitsOnto parent [], v.Passes

theorem Tree.passesBelow_leaf {parent : Option Token} (hk : token.kind.isOperand) :
    (leaf token).PassesBelow parent := by
  intro v hv
  rw [mem_visitsOnto_leaf.mp hv]
  constructor
  · cases h : token.kind <;> simp_all [OperandUse.ofNode?, Tree.kind, Tree.token, TokenKind.isOperand]
  · intro h
    simp_all [Tree.kind, Tree.token, TokenKind.isOperand]
  · intro h
    simp_all [Tree.kind, Tree.token, TokenKind.isOperand]

theorem Tree.passesBelow_node {parent : Option Token} (hl : tl.PassesBelow (some token))
    (hr : tr.PassesBelow (some token)) (h : Visit.Passes ⟨node token tl tr, parent⟩) :
    (node token tl tr).PassesBelow parent := by
  intro v hv
  rcases mem_visitsOnto_node.mp hv with hv | hv | rfl
  · exact hl v hv
  · exact hr v hv
  · exact h

theorem EmptyArguments.placesFrom_eq_nil {ts : List Tree} (h : ∀ t ∈ ts, ¬ t.isMissing)
    (first : Nat) : placesFrom first ts = [] := by
  induction ts generalizing first with
  | nil => rfl
  | cons t ts ih =>
    rw [placesFrom, if_neg (h t List.mem_cons_self)]
    exact ih (fun u hu => h u (List.mem_cons_of_mem _ hu)) _

/-! ## Expressions -/

/-- The tree `t` renders the expression `e`. -/
structure Renders (e : Expr) (t : Tree) : Prop where
  text : t.text = e.written
  present : ¬ t.isMissing
  single : t.kind ≠ .separator
  passes (parent : Option Token) : t.PassesBelow parent

/-- The tree `t` renders the arguments `es`, of which there are some. -/
structure RendersAll (es : List Expr) (t : Tree) : Prop where
  text : t.text = Expr.writtenAll es
  present : ¬ t.isMissing
  links : ∀ u ∈ t.chain, ¬ u.isMissing
  passes (parent : Token) (h : parent.kind = .call ∨ parent.kind = .separator) :
    t.PassesBelow (some parent)

theorem Renders.operand (hk : token.kind = .literal ∨ token.kind = .identifier)
    (htext : token.text = e.written) : Renders e (.leaf token) := by
  have hoperand : token.kind.isOperand := by rcases hk with h | h <;> rw [h] <;> rfl
  refine ⟨?_, ?_, ?_, fun _ => passesBelow_leaf hoperand⟩
  · rcases hk with h | h <;> simp [Tree.text, h, htext]
  · rcases hk with h | h <;> simp [Tree.isMissing, Token.isMissing, Tree.token, h]
  · rcases hk with h | h <;> simp [Tree.kind, Tree.token, h]

/-- An operator or a call over what it joins. -/
theorem Renders.node (hk : token.kind = .operator ∨ token.kind = .unary ∨ token.kind = .call)
    (htext : (node token tl tr).text = e.written) (hl : tl.PassesBelow (some token))
    (hr : tr.PassesBelow (some token))
    (hoperand : ∀ u ∈ OperandUse.ofNode? .standard (Tree.node token tl tr), u.lack = none)
    (hargs : token.kind = .call →
      EmptyArguments.placesFrom 0 (Tree.node token tl tr).arguments = []) :
    Renders e (.node token tl tr) := by
  have hmissing : token.kind ≠ .missing := by rcases hk with h | h | h <;> simp [h]
  have hseparator : token.kind ≠ .separator := by rcases hk with h | h | h <;> simp [h]
  refine ⟨htext, ?_, hseparator, fun parent => passesBelow_node hl hr ⟨hoperand, hargs, ?_⟩⟩
  · simpa [Tree.isMissing, Token.isMissing, Tree.token] using hmissing
  · exact fun h => absurd h hseparator

theorem Renders.binary {op : BinaryMark} (hl : Renders l tl) (hr : Renders r tr)
    (hk : token.kind = .operator) (htext : token.text = String.singleton op.char) :
    Renders (.binary op l r) (.node token tl tr) := by
  refine .node (.inl hk) ?_ (hl.passes _) (hr.passes _) ?_ (by simp [hk])
  · simp [Tree.text, hk, htext, Expr.written, hl.text, hr.text]
  · have hleft := hl.present
    have hright := hr.present
    simp [OperandUse.ofNode?, Tree.kind, Tree.token, hk, OperandUse.isAbsent, left?, right?, hleft,
      hright]

theorem Renders.negate (he : Renders e t) (hk : token.kind = .unary) (htext : token.text = "-") :
    Renders (.negate e) (.node token (.leaf .placeholder) t) := by
  refine .node (.inr (.inl hk)) ?_ (passesBelow_leaf rfl) (he.passes _) ?_ (by simp [hk])
  · have hopen : "(" ++ "-" = "(-" := rfl
    have hmissing : (Tree.leaf .placeholder).isMissing := rfl
    simp only [Tree.text, hk, htext, Expr.written, he.text, hmissing, if_true, hopen]
  · have hside : Dialect.standard.sideOf "-" = .before := by decide
    have hright := he.present
    simp [OperandUse.ofNode?, Tree.kind, Tree.token, hk, htext, hside, OperandUse.isAbsent, right?,
      hright]

theorem Renders.factorial (he : Renders e t) (hk : token.kind = .unary) (htext : token.text = "!") :
    Renders (.factorial e) (.node token t (.leaf .placeholder)) := by
  have hleft := he.present
  refine .node (.inr (.inl hk)) ?_ (he.passes _) (passesBelow_leaf rfl) ?_ (by simp [hk])
  · have hclose : "!" ++ ")" = "!)" := rfl
    simp only [Tree.text, hk, htext, Expr.written, he.text, hleft, if_false, String.append_assoc,
      hclose, Bool.false_eq_true]
  · have hside : Dialect.standard.sideOf "!" = .after := by decide
    simp [OperandUse.ofNode?, Tree.kind, Tree.token, hk, htext, hside, OperandUse.isAbsent, left?,
      hleft]

/-! ## Calls -/

theorem RendersAll.one (he : Renders e t) : RendersAll [e] t := by
  refine ⟨he.text, he.present, ?_, fun _ _ => he.passes _⟩
  rw [chain_of_ne_separator he.single]
  simpa using he.present

theorem RendersAll.more {e' : Expr} (he : Renders e tl) (hes : RendersAll (e' :: es) tr)
    (hk : token.kind = .separator) (htext : token.text = ",") :
    RendersAll (e :: e' :: es) (.node token tl tr) := by
  refine ⟨?_, ?_, ?_, fun parent hparent => ?_⟩
  · simp [Tree.text, hk, htext, Expr.writtenAll, he.text, hes.text, String.append_assoc]
  · simp [Tree.isMissing, Token.isMissing, Tree.token, hk]
  · rw [Tree.chain, if_pos hk]
    intro u hu
    rcases List.mem_cons.mp hu with rfl | hu
    · exact he.present
    · exact hes.links u hu
  · refine passesBelow_node (he.passes _) (hes.passes _ (.inr hk)) ⟨?_, ?_, ?_⟩
    · simp [OperandUse.ofNode?, Tree.kind, Tree.token, hk]
    · intro h
      simp [Tree.kind, Tree.token, hk] at h
    · intro h
      simpa [SeparatorUse.isValid] using hparent

theorem Renders.bareCall {f : Name} (hk : token.kind = .call)
    (htext : token.text = String.ofList f.chars) :
    Renders (.call f []) (.node token (.leaf .placeholder) (.leaf .placeholder)) := by
  refine .node (.inr (.inr hk)) ?_ (passesBelow_leaf rfl) (passesBelow_leaf rfl) ?_ fun _ => rfl
  · simp [Tree.text, hk, htext, Expr.written, Expr.writtenAll, Token.placeholder]
  · simp [OperandUse.ofNode?, Tree.kind, Tree.token, hk]

theorem Renders.call {f : Name} (hes : RendersAll es t) (hk : token.kind = .call)
    (htext : token.text = String.ofList f.chars) :
    Renders (.call f es) (.node token (.leaf .placeholder) t) := by
  refine .node (.inr (.inr hk)) ?_ (passesBelow_leaf rfl) (hes.passes _ (.inl hk)) ?_ fun _ => ?_
  · simp [Tree.text, hk, htext, Expr.written, hes.text]
  · simp [OperandUse.ofNode?, Tree.kind, Tree.token, hk]
  · rw [Tree.arguments, if_neg hes.present]
    exact EmptyArguments.placesFrom_eq_nil hes.links 0

end Reckon
