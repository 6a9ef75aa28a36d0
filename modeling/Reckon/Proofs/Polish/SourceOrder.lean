import Mathlib
import Reckon.Proofs.Polish.EmptyGroups
import Reckon.Proofs.Polish.Growth
import Reckon.Proofs.Polish.Shape
import Reckon.Proofs.Scan.Claims

/-!
# The order of the source

A tree read from left to right gives back the tokens of the text.  While tokens are taken in, the
subtrees on the working stack alternate with the tokens that wait to join them (`Woven`), and in
this alternation the text read so far can still be read off.  The subtrees are well-formed, and each
waiting token makes a well-formed tree with whatever comes behind it.

The one exception is an empty group.  It counts as an operand for what comes behind it but brings
none, so a token that should have joined it takes the operand before it instead.
-/

namespace Reckon

/-! ## Readings -/

/-- The tokens of a tree from left to right, without placeholders. -/
def Tree.written (t : Tree) : List Token := t.inorder.filter (!·.isMissing)

/-- Whether a token shows in a tree: parentheses and placeholders do not. -/
def Token.shows (t : Token) : Bool :=
  match t.kind with
  | .opening | .closing | .missing => false
  | .literal | .identifier | .operator | .unary | .call | .separator => true

/-- The tokens that show in a tree. -/
def shown (ts : List Token) : List Token := ts.filter Token.shows

@[simp] theorem Tree.written_leaf (t : Token) :
    (Tree.leaf t).written = if t.isMissing then [] else [t] := by
  cases h : t.isMissing <;> simp [Tree.written, h]

theorem Tree.written_placeholder : (Tree.leaf .placeholder).written = [] := rfl

theorem Tree.written_node {t : Token} (h : ¬ t.isMissing) (l r : Tree) :
    (Tree.node t l r).written = l.written ++ t :: r.written := by
  simp [Tree.written, h]

theorem shown_append (ts us : List Token) : shown (ts ++ us) = shown ts ++ shown us :=
  List.filter_append ..

theorem shown_cons_of_shows {t : Token} (h : t.shows) (ts : List Token) :
    shown (t :: ts) = t :: shown ts :=
  List.filter_cons_of_pos h

theorem written_leaf_of_isOperand {t : Token} (h : t.kind.isOperand) :
    (Tree.leaf t).written = shown [t] := by
  cases hk : t.kind <;> simp_all [TokenKind.isOperand, shown, Token.shows, Token.isMissing]

theorem shown_singleton_of_shows {t : Token} (h : t.shows) : shown [t] = [t] :=
  shown_cons_of_shows h []

theorem shown_singleton_of_not_shows {t : Token} (h : ¬ t.shows) : shown [t] = [] :=
  List.filter_cons_of_neg h

namespace Polish

variable {d : Dialect} {s s' : Polish} {t : Token}

/-! ## Weaving -/

/-- The text that a working stack and the waiting tokens hold together: every token that will join
two subtrees has its left one directly before it. -/
inductive Woven (d : Dialect) : List Tree → List Token → List Token → Prop
  | nil : Woven d [] [] []
  | opening {trees : List Tree} {stack text : List Token} {o : Token}
      (h : Woven d trees stack text) (ho : o.kind = .opening) : Woven d trees (o :: stack) text
  | joint {trees : List Tree} {stack text : List Token} {j : Token}
      (h : Woven d trees stack text) {left : Tree} (hleft : left.WellFormed d)
      (hj : ∀ right, d.Joins j left right) :
      Woven d (left :: trees) (j :: stack) (text ++ (left.written ++ [j]))

/-- As `Woven`, with a last subtree behind all that waits. -/
inductive WovenUpTo (d : Dialect) : List Tree → List Token → List Token → Prop
  | mk {trees : List Tree} {stack text : List Token} (h : Woven d trees stack text) {last : Tree}
      (hlast : last.WellFormed d) : WovenUpTo d (last :: trees) stack (text ++ last.written)

variable {trees : List Tree} {stack text ops rest : List Token}

theorem WovenUpTo.join {op : Token} (h : WovenUpTo d trees (op :: stack) text)
    (hop : op.kind ≠ .opening) : WovenUpTo d (Tree.shift trees op) stack text := by
  obtain @⟨_, _, _, hw, last, hlast⟩ := h
  cases hw with
  | opening h ho => exact absurd ho hop
  | @joint _ _ _ _ h left hleft hj =>
    have hnode : (Tree.node op left last).WellFormed d := ⟨hj last, hleft, hlast⟩
    have hn := WovenUpTo.mk h hnode
    rw [Tree.written_node (hj last).not_isMissing] at hn
    rw [shift_joint (hj last).not_isOperand]
    simpa using hn

theorem WovenUpTo.popped (h : WovenUpTo d trees (ops ++ rest) text) (hops : ∀ o ∈ ops, waits o) :
    WovenUpTo d (ops.foldl Tree.shift trees) rest text := by
  induction ops generalizing trees with
  | nil => exact h
  | cons op ops ih =>
    have hop : op.kind ≠ .opening := by
      intro hk
      simpa [waits, hk, TokenKind.opensGroup] using hops op (by simp)
    exact ih (h.join hop) fun o ho => hops o (by simp [ho])

/-- What is woven before the token `previous` was taken in, and what is behind it. -/
def WovenBehind (d : Dialect) (previous : Option Token) (trees : List Tree)
    (stack text : List Token) : Prop :=
  if d.expectsOperand previous then Woven d trees stack text else WovenUpTo d trees stack text

theorem WovenBehind.woven (h : WovenBehind d s.previous trees stack text)
    (hdue : d.expectsOperand s.previous) : Woven d trees stack text := by
  rwa [WovenBehind, if_pos hdue] at h

theorem WovenBehind.filled (h : WovenBehind d s.previous s.forest s.stack text) :
    WovenUpTo d (forestOf (s.filled d)) s.stack text := by
  unfold WovenBehind at h
  rw [forestOf_filled]
  by_cases hdue : d.expectsOperand s.previous
  · rw [if_pos hdue] at h ⊢
    have hp := WovenUpTo.mk h Tree.wellFormed_placeholder
    rwa [Tree.written_placeholder, List.append_nil] at hp
  · rwa [if_neg hdue] at h ⊢

theorem WovenUpTo.close {o : Token} (h : WovenUpTo d trees (o :: stack) text)
    (ho : o.kind = .opening) : WovenUpTo d trees stack text := by
  obtain ⟨hw, hlast⟩ := h
  cases hw with
  | opening hw ho' => exact .mk hw hlast
  | joint hw hleft hj => exact absurd ho (hj (.leaf .placeholder)).ne_opening

theorem WovenUpTo.eq_written {tree : Tree} (h : WovenUpTo d [tree] [] text) :
    text = tree.written := by
  obtain ⟨hw, hlast⟩ := h
  cases hw
  rfl

theorem WovenUpTo.wellFormed {tree : Tree} (h : WovenUpTo d (tree :: trees) stack text) :
    tree.WellFormed d := by
  cases h with
  | mk hw hlast => exact hlast

theorem WovenUpTo.wait (h : WovenUpTo d trees stack text) (hj : ∀ left right, d.Joins t left right) :
    Woven d trees (t :: stack) (text ++ [t]) := by
  obtain ⟨hw, hlast⟩ := h
  rw [List.append_assoc]
  exact .joint hw hlast (hj _)

/-- A token that needs nothing on its right joins the last subtree at once. -/
theorem WovenUpTo.cap (h : WovenUpTo d trees stack text)
    (hj : ∀ left, d.Joins t left (.leaf .placeholder)) :
    WovenUpTo d (Tree.shift (Tree.shift trees .placeholder) t) stack (text ++ [t]) := by
  obtain @⟨_, _, _, hw, last, hlast⟩ := h
  have hnode : (Tree.node t last (.leaf .placeholder)).WellFormed d :=
    ⟨hj last, hlast, Tree.wellFormed_placeholder⟩
  have hn := WovenUpTo.mk hw hnode
  rw [Tree.written_node (hj last).not_isMissing, Tree.written_placeholder] at hn
  rw [shift_placeholder, shift_joint (hj last).not_isOperand, List.append_assoc]
  exact hn

/-! ## One token -/

/-- A step that makes no juxtaposition writes its token behind the text. -/
theorem WovenBehind.step (h : WovenBehind d s.previous s.forest s.stack text)
    (hstep : Step d s t s') (hm : meets d s.previous t = 0)
    (hempty : ¬ (s.previous.any (·.kind == .opening) ∧ t.kind = .closing)) :
    WovenBehind d (some t) s'.forest s'.stack (text ++ shown [t]) := by
  have hgrows := hstep.grows hm hempty
  generalize s'.forest = trees, s'.stack = stack at hgrows
  have hfilled := h.filled
  unfold WovenBehind
  cases hgrows with
  | operand hk hdue hends =>
    rw [if_neg hends, ← written_leaf_of_isOperand hk]
    exact .mk (h.woven hdue) hk
  | opening hk hdue hends =>
    rw [if_pos hends, shown_singleton_of_not_shows (by simp [Token.shows, hk]),
      List.append_nil]
    exact (h.woven hdue).opening hk
  | call hk hdue hends =>
    rw [if_pos hends, shown_singleton_of_shows (by simp [Token.shows, hk])]
    exact (h.woven hdue).joint Tree.wellFormed_placeholder (joins_of_call hk)
  | before hk hb hdue hends =>
    rw [if_pos hends, shown_singleton_of_shows (by simp [Token.shows, hk])]
    exact (h.woven hdue).joint Tree.wellFormed_placeholder (joins_of_standsBefore hk hb)
  | after hk hb hs hops hends =>
    rw [hs] at hfilled
    rw [if_neg hends, shown_singleton_of_shows (by simp [Token.shows, hk])]
    exact (hfilled.popped (waits_of_splitsAt hops)).cap (joins_of_standsBehind hk hb)
  | binary hk hs hops hends =>
    have hshows : t.shows := by cases hk' : t.kind <;> simp_all [TokenKind.isBinary, Token.shows]
    rw [hs] at hfilled
    rw [if_pos hends, shown_singleton_of_shows hshows]
    exact (hfilled.popped (waits_of_splitsAt hops)).wait (joins_of_isBinary hk)
  | endGroup hk hs hops ho hends =>
    rw [hs] at hfilled
    rw [if_neg hends, shown_singleton_of_not_shows (by simp [Token.shows, hk]),
      List.append_nil]
    exact (hfilled.popped hops).close ho
  | endCall hk hs hops hf hends =>
    rw [hs] at hfilled
    rw [if_neg hends, shown_singleton_of_not_shows (by simp [Token.shows, hk]),
      List.append_nil]
    exact (hfilled.popped hops).join (by simp [hf])

/-! ## All tokens -/

theorem WovenBehind.run {ts : List Token} (h : WovenBehind d s.previous s.forest s.stack text)
    (hts : NoEmptyGroup (s.previous.toList ++ ts))
    (hj : d.juxtapositions (s.previous.toList ++ ts) = 0) (hrun : run d s ts = .ok s') :
    WovenBehind d s'.previous s'.forest s'.stack (text ++ shown ts) := by
  induction ts generalizing s text with
  | nil =>
    cases hrun
    simpa [shown] using h
  | cons t ts ih =>
    obtain ⟨s₁, h₁, hrun₁⟩ := step_of_run_cons hrun
    rw [juxtapositions_cons] at hj
    have hp := h₁.previous_eq
    have hw := h.step h₁ (by omega) hts.head
    rw [← hp] at hw
    have hfin := ih hw (by rw [hp]; exact hts.tail)
      (by rw [hp]; exact Nat.eq_zero_of_add_eq_zero_left hj) hrun₁
    rw [List.append_assoc, ← shown_append] at hfin
    exact hfin

/-- Without empty groups, all that the tokens show is woven into one tree. -/
theorem woven_of_noEmptyGroup {ts polish : List Token} {tree : Tree} (h : NoEmptyGroup ts)
    (hp : ofTokens d ts = .ok polish) (ht : Tree.ofPolish polish = .ok tree) :
    WovenUpTo d [tree] [] (shown ts) := by
  obtain ⟨hj, s, hrun, hwaits, hroot⟩ := run_of_ofPolish h hp ht
  have hstart : WovenBehind d start.previous start.forest start.stack [] := Woven.nil
  have hout := (hstart.run h hj hrun).filled
  rw [← List.append_nil s.stack] at hout
  have hfin := hout.popped hwaits
  rw [hroot, List.nil_append] at hfin
  exact hfin

/-- Without empty groups, a tree read from left to right gives back what the tokens show. -/
theorem written_of_noEmptyGroup {ts polish : List Token} {tree : Tree} (h : NoEmptyGroup ts)
    (hp : ofTokens d ts = .ok polish) (ht : Tree.ofPolish polish = .ok tree) :
    tree.written = shown ts := (woven_of_noEmptyGroup h hp ht).eq_written.symm

end Polish

/-! ## Texts -/

variable {d : Dialect} {source : String} {p : Parsed}

theorem shown_dropEmptyGroups (ts : List Token) : shown (dropEmptyGroups ts) = shown ts := by
  induction ts with
  | nil => rfl
  | cons t ts ih =>
    have hcons : ∀ (t : Token) (us : List Token), shown (t :: us) = shown [t] ++ shown us :=
      fun t us => shown_append [t] us
    rw [hcons, ← ih]
    by_cases h : OpensOnto t (dropEmptyGroups ts)
    · obtain ⟨c, hc, hts⟩ := dropEmptyGroups_of_opensOnto h
      rw [hts, hcons c, shown_singleton_of_not_shows (by simp [Token.shows, h.1]),
        shown_singleton_of_not_shows (by simp [Token.shows, hc])]
      rfl
    · rw [dropEmptyGroups_of_not h, hcons]

/-- A text has no placeholders, so all its tokens but parentheses show. -/
theorem shown_tokens (d : Dialect) (source : String) :
    shown (d.tokens source) =
      (d.tokens source).filter fun t => t.kind ≠ .opening ∧ t.kind ≠ .closing := by
  refine List.filter_congr fun t ht => ?_
  have hm := Dialect.kind_of_mem_tokens ht
  cases hk : t.kind <;> simp_all [Token.shows]

/-- If no empty group takes the place of an operand, the tree is well-formed. -/
theorem wellFormed_of_parse (h : d.parse source = .ok p)
    (hs : d.sparesEmptyGroups none p.tokens) : p.tree.WellFormed d := by
  obtain ⟨hne, hp, ht⟩ := parse_dropEmptyGroups h hs
  exact (Polish.woven_of_noEmptyGroup hne hp ht).wellFormed

/-- **The order of the source.**  If no empty group takes the place of an operand, the tree read
from left to right gives back the tokens of the text without the parentheses. -/
theorem written_of_parse (h : d.parse source = .ok p) (hs : d.sparesEmptyGroups none p.tokens) :
    p.tree.written = p.tokens.filter fun t => t.kind ≠ .opening ∧ t.kind ≠ .closing := by
  obtain ⟨hne, hp, ht⟩ := parse_dropEmptyGroups h hs
  rw [Polish.written_of_noEmptyGroup hne hp ht, shown_dropEmptyGroups, (parse_eq_ok h).1,
    shown_tokens]

/-- The empty groups of `-f(x, 2!) * () 3 (())` are in nobody's place. -/
theorem written_past_empty_group :
    ∃ p, Dialect.standard.parse "-f(x, 2!) * () 3 (())" = .ok p ∧
      Dialect.standard.sparesEmptyGroups none p.tokens ∧
      p.tree.written = p.tokens.filter (fun t => t.kind ≠ .opening ∧ t.kind ≠ .closing) ∧
      p.tree.written.map (·.text) = ["-", "f", "x", ",", "2", "!", "*", "3"] := by
  have hp : ∃ p, Dialect.standard.parse "-f(x, 2!) * () 3 (())" = .ok p ∧
      Dialect.standard.sparesEmptyGroups none p.tokens ∧
      p.tree.written.map (·.text) = ["-", "f", "x", ",", "2", "!", "*", "3"] := by
    refine ⟨_, by cbv, ?_, ?_⟩ <;> decide
  obtain ⟨p, hp, hs, hw⟩ := hp
  exact ⟨p, hp, hs, written_of_parse hp hs, hw⟩

/-- The empty group of `1 2 + ()` leaves the sum without its right operand, and it takes the two
numbers instead. -/
theorem not_written_behind_empty_group :
    ¬ ∀ (d : Dialect) (source : String) (p : Parsed), d.parse source = .ok p →
      p.tree.written = p.tokens.filter fun t => t.kind ≠ .opening ∧ t.kind ≠ .closing := by
  intro h
  have hp : ∃ p, Dialect.standard.parse "1 2 + ()" = .ok p ∧
      p.tree.written.map (·.text) = ["1", "+", "2"] ∧
      (p.tokens.filter fun t => t.kind ≠ .opening ∧ t.kind ≠ .closing).map (·.text) =
        ["1", "2", "+"] := by
    refine ⟨_, by cbv, ?_, ?_⟩ <;> decide
  obtain ⟨p, hp, hw, ht⟩ := hp
  rw [h _ _ _ hp, ht] at hw
  exact absurd hw (by decide)

end Reckon
