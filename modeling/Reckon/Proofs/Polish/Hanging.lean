import Reckon.Proofs.Polish.Enclosures
import Reckon.Proofs.Polish.Growth
import Reckon.Proofs.Polish.Root
import Reckon.Proofs.Tree

/-!
# Where separators hang

A separator hangs below what joins it: a call or another separator if it is `Attached` to one, else
an operator or nothing.  While tokens are taken in, the working stack holds subtrees whose
separators hang in this way (`Held`).  The last subtree has nothing above it yet; what will join it
is told by the tokens on its two sides, which is what `standing` looks at (`HeldUpTo`).

For this, operators have to bind tighter than separators.
-/

namespace Reckon

/-! ## Trees -/

namespace Tree

variable {V : Token → Prop} {t : Token} {u l r : Tree}

/-- If `u` is a separator, then `t` above it is a call or a separator exactly if `V` holds of it. -/
def HangsBelow (V : Token → Prop) (t : Token) (u : Tree) : Prop :=
  u.kind = .separator → (V u.token ↔ t.kind = .call ∨ t.kind = .separator)

/-- Every separator below a node hangs as `V` says. -/
def Hung (V : Token → Prop) : Tree → Prop
  | leaf _ => True
  | node t l r => (HangsBelow V t l ∧ HangsBelow V t r) ∧ l.Hung V ∧ r.Hung V

/-- What the check of separators looks at. -/
theorem Hung.iff_parent {parent : Option Token} (h : u.Hung V)
    (hu : u.kind = .separator →
      (V u.token ↔ parent.any fun p => p.kind == .call || p.kind == .separator)) :
    ∀ v ∈ u.visitsOnto parent [], v.tree.kind = .separator →
      (V v.tree.token ↔ v.parent.any fun p => p.kind == .call || p.kind == .separator) := by
  induction u generalizing parent with
  | leaf t =>
    intro v hv
    rw [mem_visitsOnto_leaf.mp hv]
    exact hu
  | node t l r ihl ihr =>
    obtain ⟨⟨hbelow, hbelow'⟩, hl, hr⟩ := h
    intro v hv
    rcases mem_visitsOnto_node.mp hv with hv | hv | rfl
    · exact ihl hl (by simpa [HangsBelow] using hbelow) v hv
    · exact ihr hr (by simpa [HangsBelow] using hbelow') v hv
    · exact hu

end Tree

/-! ## Ranks -/

/-- An operator that binds tighter than a separator. -/
def Dialect.Binds (d : Dialect) (t : Token) : Prop :=
  (t.kind = .operator ∨ t.kind = .unary) ∧ d.separatorPriority < (d.rank t).priority

namespace Polish

variable {V : Token → Prop} {d : Dialect} {s s' : Polish} {t j sep : Token} {trees : List Tree}
  {stack ops rest : List Token} {es : List Enclosure} {next : Option Token}
  {before behind : List Token}

theorem rank_separator (h : sep.kind = .separator) :
    d.rank sep = ⟨d.separatorPriority, false, false⟩ := by
  rw [Dialect.rank, h]

/-- Operators go out before a separator waits. -/
theorem yields_separator (hs : sep.kind = .separator) (hj : d.Binds j) :
    yields d (d.rank sep) j := by
  have hopens : j.kind.opensGroup = false := by
    rcases hj.1 with h | h <;> rw [h] <;> rfl
  rw [yields, hopens, Rank.outranks, rank_separator hs]
  simp [hj.2]

/-- A separator goes out neither for an operator nor for another separator. -/
theorem not_yields_of_separator (hs : sep.kind = .separator)
    (ht : d.Binds t ∨ t.kind = .separator) : ¬ yields d (d.rank t) sep := by
  rw [yields, Rank.outranks, rank_separator hs]
  rcases ht with ht | ht
  · have hlt := ht.2
    simp
    omega
  · rw [rank_separator ht]
    simp

/-! ## Neighbours -/

theorem isEdge_of_closing (h : ∀ t ∈ next, t.kind = .closing) :
    isEdge next ∧ next.any (·.kind == .separator) = false := by
  cases next with
  | none => exact ⟨rfl, rfl⟩
  | some t => simp [isEdge, h t rfl]

theorem isEdge_separator (h : sep.kind = .separator) : isEdge (some sep) := by
  simp [isEdge, h]

theorem not_isEdge_operator (h : t.kind = .operator ∨ t.kind = .unary) : ¬ isEdge (some t) := by
  rcases h with h | h <;> simp [isEdge, h, TokenKind.opensGroup]

/-- Before a separator, the group does not stand apart unless an operator takes it. -/
theorem between_separator {outer : Standing} {previous : Option Token} (hs : sep.kind = .separator)
    (h : isEdge previous) : Standing.between previous (some sep) outer = .leading := by
  simp [Standing.between, h, isEdge_separator hs, hs]

/-- Behind a separator, the last item of a list. -/
theorem between_separator_closing {outer : Standing} (hs : sep.kind = .separator)
    (h : ∀ t ∈ next, t.kind = .closing) : Standing.between (some sep) next outer = .trailing := by
  simp [Standing.between, isEdge_of_closing h, isEdge_separator hs, hs]

/-- Between its own brackets, a group stands like the list that it is. -/
theorem between_brackets {outer : Standing} {o c : Token} (ho : o.kind.opensGroup)
    (hc : c.kind = .closing) : Standing.between (some o) (some c) outer = outer := by
  have hne : o.kind ≠ .separator := by
    intro h
    simp [h, TokenKind.opensGroup] at ho
  simp [Standing.between, isEdge, ho, hc, hne]

/-- Next to an operator. -/
theorem between_operator {outer : Standing} {previous : Option Token}
    (h : ¬ (isEdge previous ∧ isEdge next)) : Standing.between previous next outer = .apart := by
  rw [Standing.between, if_neg]
  rwa [Bool.and_eq_true]

/-! ## The working stack -/

/-- The subtrees on a working stack and the tokens that wait to join them, within some enclosures.
Every separator in the subtrees hangs as `V` says, those at their roots too, and `V` says of the
waiting ones what the enclosures do. -/
inductive Held (V : Token → Prop) (d : Dialect) :
    List Tree → List Token → List Enclosure → Prop
  | whole : Held V d [] [] [.whole]
  | opening {trees : List Tree} {stack : List Token} {es : List Enclosure} {o : Token}
      {e : Enclosure} (h : Held V d trees stack es) (ho : o.kind = .opening)
      (hopener : e.opener = some o) (hbefore : e.before = stack.head?) (hd : e.divided = false) :
      Held V d trees (o :: stack) (e :: es)
  | call {trees : List Tree} {stack : List Token} {es : List Enclosure} {o : Token}
      {e : Enclosure} (h : Held V d trees stack es) (ho : o.kind = .call)
      (hopener : e.opener = some o) (hd : e.divided = false) {left : Tree} (hl : left.Hung V)
      (hleft : left.kind ≠ .separator) : Held V d (left :: trees) (o :: stack) (e :: es)
  | operator {trees : List Tree} {stack : List Token} {es : List Enclosure} {j : Token}
      (h : Held V d trees stack es) (hj : d.Binds j) {left : Tree} (hl : left.Hung V)
      (hleft : left.kind = .separator → ¬ V left.token) : Held V d (left :: trees) (j :: stack) es
  | separator {trees : List Tree} {stack : List Token} {es : List Enclosure} {sep : Token}
      (h : Held V d trees stack es) (hs : sep.kind = .separator)
      (htop : ∀ o ∈ stack.head?, ¬ d.Binds o) (hV : V sep ↔ Attached es) {left : Tree}
      (hl : left.Hung V) (hleft : left.kind = .separator → V left.token) :
      Held V d (left :: trees) (sep :: stack) (setDivided true es)

namespace Held

theorem ne_nil (h : Held V d trees stack es) : es ≠ [] := by
  induction h with
  | whole | opening | call => exact List.cons_ne_nil _ _
  | operator h hj hl hleft ih => exact ih
  | @separator _ _ es _ h hs htop hV _ hl hleft ih => cases es <;> simp_all [setDivided]

theorem mem_stack (h : Held V d trees stack es) :
    ∀ o ∈ stack, o.kind.opensGroup ∨ d.Binds o ∨ o.kind = .separator := by
  induction h with
  | whole => simp
  | opening h ho hopener hbefore hd ih =>
    exact List.forall_mem_cons.mpr ⟨.inl (by rw [ho]; rfl), ih⟩
  | call h ho hopener hd hl hleft ih =>
    exact List.forall_mem_cons.mpr ⟨.inl (by rw [ho]; rfl), ih⟩
  | operator h hj hl hleft ih => exact List.forall_mem_cons.mpr ⟨.inr (.inl hj), ih⟩
  | separator h hs htop hV hl hleft ih => exact List.forall_mem_cons.mpr ⟨.inr (.inr hs), ih⟩

/-- With no operator on top, a separator is on top exactly if the enclosure is divided. -/
theorem divided_iff (h : Held V d trees stack es) (htop : ∀ o ∈ stack.head?, ¬ d.Binds o) :
    es.head?.any (·.divided) ↔ stack.head?.any (·.kind == .separator) := by
  cases h with
  | whole => simp [Enclosure.whole]
  | opening h ho hopener hbefore hd => simp [ho, hd]
  | call h ho hopener hd hl hleft => simp [ho, hd]
  | operator h hj hl hleft => exact absurd hj (htop _ rfl)
  | @separator _ _ es _ h hs _ hV _ hl hleft =>
    have hne := h.ne_nil
    cases es <;> simp_all [setDivided]

theorem isEdge_head (h : Held V d trees stack es) (htop : ∀ o ∈ stack.head?, ¬ d.Binds o) :
    isEdge stack.head? := by
  cases stack with
  | nil => rfl
  | cons o stack =>
    rcases h.mem_stack o List.mem_cons_self with ho | ho | ho
    · simp [isEdge, ho]
    · exact absurd ho (htop o rfl)
    · simp [isEdge, ho]

/-- What is attached is attached to the token on top or to what the enclosure is attached to. -/
theorem attached_iff (h : Held V d trees stack es) (htop : ∀ o ∈ stack.head?, ¬ d.Binds o)
    (hnext : ∀ t ∈ next, t.kind = .closing) :
    Attached es ↔ Standing.between stack.head? next (standing es) ≠ .apart := by
  have hedge := h.isEdge_head htop
  have hbehind := isEdge_of_closing hnext
  rw [Attached, h.divided_iff htop, Standing.between, hedge, hbehind.1, hbehind.2]
  cases stack.head?.any (·.kind == .separator) <;> simp

end Held

/-- As `Held`, with a last subtree behind all that waits.  If it is a separator, `V` says of it what
the tokens on its two sides do. -/
inductive HeldUpTo (V : Token → Prop) (d : Dialect) (next : Option Token) :
    List Tree → List Token → List Enclosure → Prop
  | mk {trees : List Tree} {stack : List Token} {es : List Enclosure}
      (h : Held V d trees stack es) {last : Tree} (hl : last.Hung V)
      (hlast : last.kind = .separator →
        (V last.token ↔ Standing.between stack.head? next (standing es) ≠ .apart)) :
      HeldUpTo V d next (last :: trees) stack es

namespace HeldUpTo

/-- A subtree that is no separator may stand anywhere. -/
theorem of_ne_separator {last : Tree} (h : Held V d trees stack es) (hl : last.Hung V)
    (hne : last.kind ≠ .separator) : HeldUpTo V d next (last :: trees) stack es :=
  .mk h hl fun hs => absurd hs hne

theorem join_operator (h : HeldUpTo V d next trees (j :: stack) es)
    (hj : j.kind = .operator ∨ j.kind = .unary) :
    HeldUpTo V d next (Tree.shift trees j) stack es := by
  obtain @⟨_, _, _, hheld, last, hlast, hv⟩ := h
  cases hheld with
  | opening h ho hopener hbefore hd => simp [ho] at hj
  | call h ho hopener hd hl hleft => simp [ho] at hj
  | separator h hs htop hV hl hleft => simp [hs] at hj
  | operator h hb hl hleft =>
    have hjoint : ¬ j.kind.isOperand := by rcases hj with hj | hj <;> simp [hj, TokenKind.isOperand]
    have hkinds : ¬ (j.kind = .call ∨ j.kind = .separator) := by
      rcases hj with hj | hj <;> simp [hj]
    rw [shift_joint hjoint]
    refine of_ne_separator h ⟨⟨?_, ?_⟩, hl, hlast⟩ fun hk => hkinds (.inr hk)
    · intro hk
      exact iff_of_false (hleft hk) hkinds
    · intro hk
      have hapart : Standing.between (some j) next (standing es) = .apart :=
        between_operator fun hedge => not_isEdge_operator hj hedge.1
      exact iff_of_false (fun hV => (hv hk).mp hV hapart) hkinds

/-- Before a closing parenthesis or the end, waiting separators are joined too. -/
theorem join_separator (h : HeldUpTo V d next trees (sep :: stack) es) (hs : sep.kind = .separator)
    (hnext : ∀ t ∈ next, t.kind = .closing) :
    ∃ es', setDivided false es' = setDivided false es ∧
      HeldUpTo V d next (Tree.shift trees sep) stack es' := by
  obtain @⟨_, _, _, hheld, last, hlast, hv⟩ := h
  cases hheld with
  | opening h ho hopener hbefore hd => simp [ho] at hs
  | call h ho hopener hd hl hleft => simp [ho] at hs
  | operator h hb hl hleft =>
    have hj := hb.1
    simp [hs] at hj
  | @separator _ _ es _ h hs htop hV _ hl hleft =>
    rw [shift_joint (by simp [hs, TokenKind.isOperand])]
    refine ⟨es, (setDivided_setDivided false true es).symm, .mk h ⟨⟨?_, ?_⟩, hl, hlast⟩ ?_⟩
    · intro hk
      exact iff_of_true (hleft hk) (.inr hs)
    · intro hk
      have htrailing :
          Standing.between (some sep) next (standing (setDivided true es)) = .trailing :=
        between_separator_closing hs hnext
      refine iff_of_true ((hv hk).mpr ?_) (.inr hs)
      rw [List.head?_cons, htrailing]
      decide
    · intro _
      exact hV.trans (h.attached_iff htop hnext)

theorem popped_operators (h : HeldUpTo V d next trees (ops ++ rest) es)
    (hops : ∀ o ∈ ops, o.kind = .operator ∨ o.kind = .unary) :
    HeldUpTo V d next (ops.foldl Tree.shift trees) rest es := by
  induction ops generalizing trees with
  | nil => exact h
  | cons op ops ih =>
    obtain ⟨hop, hops⟩ := List.forall_mem_cons.mp hops
    exact ih (h.join_operator hop) hops

theorem mem_stack (h : HeldUpTo V d next trees stack es) :
    ∀ o ∈ stack, o.kind.opensGroup ∨ d.Binds o ∨ o.kind = .separator := by
  obtain ⟨hheld, -, -⟩ := h
  exact hheld.mem_stack

theorem popped_waiting (h : HeldUpTo V d next trees (ops ++ rest) es)
    (hops : ∀ o ∈ ops, waits o) (hnext : ∀ t ∈ next, t.kind = .closing) :
    ∃ es', setDivided false es' = setDivided false es ∧
      HeldUpTo V d next (ops.foldl Tree.shift trees) rest es' := by
  induction ops generalizing trees es with
  | nil => exact ⟨es, rfl, h⟩
  | cons op ops ih =>
    obtain ⟨hop, hops⟩ := List.forall_mem_cons.mp hops
    rcases h.mem_stack op List.mem_cons_self with ho | ho | ho
    · simp [waits, ho] at hop
    · exact ih (h.join_operator ho.1) hops
    · obtain ⟨es', hes', h'⟩ := h.join_separator ho hnext
      obtain ⟨es'', hes'', h''⟩ := ih h' hops
      exact ⟨es'', hes''.trans hes', h''⟩

/-- What goes out before an operator are operators. -/
theorem popped_yielding (h : HeldUpTo V d next trees (ops ++ rest) es)
    (hops : SplitsAt (yields d (d.rank t)) ops rest) (ht : d.Binds t ∨ t.kind = .separator) :
    HeldUpTo V d next (ops.foldl Tree.shift trees) rest es := by
  apply h.popped_operators
  intro o ho
  have hyields := hops.1 o ho
  rcases h.mem_stack o (List.mem_append_left rest ho) with hk | hk | hk
  · simp [yields, hk] at hyields
  · exact hk.1
  · exact absurd hyields (not_yields_of_separator hk ht)

/-- An operator behind a subtree takes it. -/
theorem not_holds (h : HeldUpTo V d (some t) trees stack es)
    (ht : t.kind = .operator ∨ t.kind = .unary) : ∃ last below, trees = last :: below ∧
      Held V d below stack es ∧ last.Hung V ∧ (last.kind = .separator → ¬ V last.token) := by
  obtain @⟨below, _, _, hheld, last, hlast, hv⟩ := h
  refine ⟨last, below, rfl, hheld, hlast, fun hk hV => (hv hk).mp hV ?_⟩
  exact between_operator fun hedge => not_isEdge_operator ht hedge.2

theorem wait_operator (h : HeldUpTo V d (some t) trees stack es) (ht : d.Binds t) :
    Held V d trees (t :: stack) es := by
  obtain ⟨last, below, rfl, hheld, hlast, hnot⟩ := h.not_holds ht.1
  exact hheld.operator ht hlast hnot

/-- A unary operator behind its operand joins it at once. -/
theorem cap (h : HeldUpTo V d (some t) trees stack es) (ht : t.kind = .unary) :
    HeldUpTo V d next (Tree.shift (Tree.shift trees .placeholder) t) stack es := by
  obtain ⟨last, below, rfl, hheld, hlast, hnot⟩ := h.not_holds (.inr ht)
  rw [shift_placeholder, shift_joint (by simp [ht, TokenKind.isOperand])]
  have hkinds : ¬ (t.kind = .call ∨ t.kind = .separator) := by simp [ht]
  refine of_ne_separator hheld ⟨⟨?_, ?_⟩, hlast, trivial⟩ fun hk => hkinds (.inr hk)
  · intro hk
    exact iff_of_false (hnot hk) hkinds
  · intro hk
    cases hk

theorem wait_separator (h : HeldUpTo V d (some sep) trees stack es) (hs : sep.kind = .separator)
    (htop : ∀ o ∈ stack.head?, ¬ d.Binds o) (hV : V sep ↔ Attached es) :
    Held V d trees (sep :: stack) (setDivided true es) := by
  obtain ⟨hheld, hlast, hv⟩ := h
  refine hheld.separator hs htop hV hlast fun hk => (hv hk).mpr ?_
  rw [between_separator hs (hheld.isEdge_head htop)]
  decide

end HeldUpTo

/-! ## One token -/

/-- What is held before some tokens, the one taken in last among those before. -/
def HeldBehind (V : Token → Prop) (d : Dialect) (s : Polish) (before behind : List Token) : Prop :=
  if d.expectsOperand s.previous then
    Held V d s.forest s.stack (enclosures before behind) ∧ s.stack.head? = s.previous
  else HeldUpTo V d behind.head? s.forest s.stack (enclosures before behind)

theorem HeldBehind.held (h : HeldBehind V d s before behind) (hdue : d.expectsOperand s.previous) :
    Held V d s.forest s.stack (enclosures before behind) ∧ s.stack.head? = s.previous := by
  rwa [HeldBehind, if_pos hdue] at h

theorem HeldBehind.filled (h : HeldBehind V d s before behind) :
    HeldUpTo V d behind.head? (forestOf (s.filled d)) s.stack (enclosures before behind) := by
  unfold HeldBehind at h
  rw [forestOf_filled]
  by_cases hdue : d.expectsOperand s.previous
  · rw [if_pos hdue] at h ⊢
    exact .of_ne_separator h.1 trivial (by decide)
  · rwa [if_neg hdue] at h ⊢

/-- A group in plain parentheses ends: what was in it is an item of what encloses it. -/
theorem HeldUpTo.close_group {o c : Token} {es' : List Enclosure}
    (h : HeldUpTo V d (some c) trees (o :: stack) es') (ho : o.kind = .opening)
    (hc : c.kind = .closing)
    (hes : setDivided false es' = setDivided false (enclosures before (c :: behind))) :
    HeldUpTo V d behind.head? trees stack (enclosures (c :: before) behind) := by
  obtain @⟨_, _, _, hheld, last, hlast, hv⟩ := h
  cases hheld with
  | call h ho' hopener hd hl hleft => simp [ho] at ho'
  | operator h hb hl hleft =>
    have hj := hb.1
    simp [ho] at hj
  | separator h hs htop hV hl hleft => simp [ho] at hs
  | @opening _ _ outer _ e h _ hopener hbefore hd =>
    obtain ⟨hbehind, houter⟩ := behind_of_closing hes hc (by rw [hopener]; rfl)
    refine .mk (houter ▸ h) hlast fun hk => (hv hk).trans ?_
    have hgroup : standing (e :: outer) = .between e.before e.behind (standing outer) := by
      rw [standing, hopener]
      simp [ho]
    rw [List.head?_cons, between_brackets (by rw [ho]; rfl) hc, hgroup, hbefore, hbehind, houter]

theorem HeldUpTo.close_call {o c : Token} {es' : List Enclosure}
    (h : HeldUpTo V d (some c) trees (o :: stack) es') (ho : o.kind = .call)
    (hc : c.kind = .closing)
    (hes : setDivided false es' = setDivided false (enclosures before (c :: behind))) :
    HeldUpTo V d behind.head? (Tree.shift trees o) stack (enclosures (c :: before) behind) := by
  obtain @⟨_, _, _, hheld, last, hlast, hv⟩ := h
  cases hheld with
  | opening h ho' hopener hbefore hd => simp [ho] at ho'
  | operator h hb hl hleft =>
    have hj := hb.1
    simp [ho] at hj
  | separator h hs htop hV hl hleft => simp [ho] at hs
  | @call _ _ outer _ e h _ hopener hd _ hl hleft =>
    obtain ⟨-, houter⟩ := behind_of_closing hes hc (by rw [hopener]; rfl)
    rw [shift_joint (by simp [ho, TokenKind.isOperand])]
    refine .of_ne_separator (houter ▸ h) ⟨⟨fun hk => absurd hk hleft, ?_⟩, hl, hlast⟩ ?_
    · intro hk
      refine iff_of_true ((hv hk).mpr ?_) (.inl ho)
      have hcall : standing (e :: outer) = .trailing := by
        rw [standing, hopener]
        simp [ho]
      rw [List.head?_cons, between_brackets (by rw [ho]; rfl) hc, hcall]
      decide
    · intro hk
      have hk : o.kind = .separator := hk
      simp [ho] at hk

/-- A step keeps what is held, if the token makes no juxtaposition and ends no empty group. -/
theorem HeldBehind.step (h : HeldBehind V d s before (t :: behind)) (hstep : Step d s t s')
    (hprev : s.previous = before.head?) (hm : meets d s.previous t = 0)
    (hempty : ¬ (s.previous.any (·.kind == .opening) ∧ t.kind = .closing))
    (hbinds : t.kind = .operator ∨ t.kind = .unary → d.Binds t)
    (hV : t.kind = .separator → (V t ↔ Attached (enclosures before (t :: behind)))) :
    HeldBehind V d s' (t :: before) behind := by
  have hgrows := hstep.grows hm hempty
  have hfilled := h.filled
  unfold HeldBehind
  rw [hstep.previous_eq]
  generalize s'.forest = trees, s'.stack = stack at hgrows ⊢
  cases hgrows with
  | operand hk hdue hends =>
    have hs : ¬ t.kind.opensGroup ∧ t.kind ≠ .closing ∧ t.kind ≠ .separator := by
      cases hk' : t.kind <;> simp_all [TokenKind.isOperand, TokenKind.opensGroup]
    obtain ⟨hopens, hclosing, hsep⟩ := hs
    rw [if_neg hends, enclosures_of_other hopens hclosing hsep]
    exact .of_ne_separator (h.held hdue).1 trivial hsep
  | opening hk hdue hends =>
    obtain ⟨hheld, hhead⟩ := h.held hdue
    rw [if_pos hends, enclosures_of_opens (by rw [hk]; rfl)]
    exact ⟨hheld.opening hk rfl (hprev.symm.trans hhead.symm) rfl, rfl⟩
  | call hk hdue hends =>
    rw [if_pos hends, enclosures_of_opens (by rw [hk]; rfl)]
    exact ⟨(h.held hdue).1.call hk rfl rfl trivial (by decide), rfl⟩
  | before hk hb hdue hends =>
    rw [if_pos hends, enclosures_of_operator (.inr hk)]
    refine ⟨(h.held hdue).1.operator (hbinds (.inr hk)) trivial ?_, rfl⟩
    intro hk
    cases hk
  | after hk hb hs hops hends =>
    rw [hs] at hfilled
    rw [if_neg hends, enclosures_of_operator (.inr hk)]
    exact (hfilled.popped_yielding hops (.inl (hbinds (.inr hk)))).cap hk
  | @binary ops rest hk hs hops hends =>
    rw [hs] at hfilled
    rw [if_pos hends]
    refine ⟨?_, rfl⟩
    by_cases hsep : t.kind = .separator
    · have hpopped := hfilled.popped_yielding hops (.inr hsep)
      rw [enclosures_of_separator hsep]
      refine hpopped.wait_separator hsep ?_ (hV hsep)
      exact fun o ho hb => hops.2 o ho (yields_separator hsep hb)
    · have hop : t.kind = .operator := by
        cases hk' : t.kind <;> simp_all [TokenKind.isBinary]
      have hpopped := hfilled.popped_yielding hops (.inl (hbinds (.inl hop)))
      rw [enclosures_of_operator (.inl hop)]
      exact hpopped.wait_operator (hbinds (.inl hop))
  | endGroup hk hs hops ho hends =>
    rw [hs] at hfilled
    obtain ⟨es', hes', hpopped⟩ := hfilled.popped_waiting hops (by simpa using hk)
    rw [if_neg hends]
    exact hpopped.close_group ho hk hes'
  | endCall hk hs hops hf hends =>
    rw [hs] at hfilled
    obtain ⟨es', hes', hpopped⟩ := hfilled.popped_waiting hops (by simpa using hk)
    rw [if_neg hends]
    exact hpopped.close_call hf hk hes'

/-! ## All tokens -/

/-- What the tokens of a text have to be for a separator to hang where `V` says. -/
structure Judges (V : Token → Prop) (d : Dialect) (before ts : List Token) : Prop where
  binds : ∀ t ∈ ts, t.kind = .operator ∨ t.kind = .unary → d.Binds t
  attached : ∀ front t back, ts = front ++ t :: back → t.kind = .separator →
    (V t ↔ Attached (enclosures (front.reverse ++ before) (t :: back)))

theorem Judges.tail {ts : List Token} (h : Judges V d before (t :: ts)) :
    Judges V d (t :: before) ts := by
  refine ⟨fun u hu => h.binds u (List.mem_cons_of_mem t hu), ?_⟩
  intro front u back hts hk
  have hV := h.attached (t :: front) u back (by rw [hts]; rfl) hk
  rw [List.reverse_cons, List.append_assoc] at hV
  exact hV

theorem HeldBehind.run {ts : List Token} (h : HeldBehind V d s before ts)
    (hprev : s.previous = before.head?) (hts : NoEmptyGroup (s.previous.toList ++ ts))
    (hj : d.juxtapositions (s.previous.toList ++ ts) = 0) (hjudges : Judges V d before ts)
    (hrun : run d s ts = .ok s') : HeldBehind V d s' (ts.reverse ++ before) [] := by
  induction ts generalizing s before with
  | nil =>
    cases hrun
    exact h
  | cons t ts ih =>
    obtain ⟨s₁, h₁, hrun₁⟩ := step_of_run_cons hrun
    rw [juxtapositions_cons] at hj
    have hp := h₁.previous_eq
    have hstep := h.step h₁ hprev (by omega) hts.head (hjudges.binds t List.mem_cons_self)
      fun hk => hjudges.attached [] t ts rfl hk
    rw [List.reverse_cons, List.append_assoc]
    refine ih hstep hp ?_ ?_ hjudges.tail hrun₁
    · rw [hp]
      exact hts.tail
    · rw [hp]
      exact Nat.eq_zero_of_add_eq_zero_left hj

/-- Without empty groups, every separator of a tree hangs as it is attached, and one at the root is
attached to nothing. -/
theorem hung_of_noEmptyGroup {ts polish : List Token} {tree : Tree} (h : NoEmptyGroup ts)
    (hjudges : Judges V d [] ts) (hp : ofTokens d ts = .ok polish)
    (ht : Tree.ofPolish polish = .ok tree) :
    tree.Hung V ∧ (tree.kind = .separator → ¬ V tree.token) := by
  obtain ⟨hj, s, hrun, hwaits, hroot⟩ := run_of_ofPolish h hp ht
  have hstart : HeldBehind V d start [] ts := ⟨.whole, rfl⟩
  have hout := (hstart.run rfl h hj hjudges hrun).filled
  rw [← List.append_nil s.stack] at hout
  obtain ⟨es, -, hfin⟩ := hout.popped_waiting hwaits (by simp)
  rw [hroot] at hfin
  obtain ⟨hheld, hlast, hv⟩ := hfin
  cases hheld
  exact ⟨hlast, fun hk hV => (hv hk).mp hV rfl⟩

end Polish

end Reckon
