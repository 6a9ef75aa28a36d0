import Reckon.Proofs.Polish.Growth
import Reckon.Proofs.Polish.Looseness
import Reckon.Proofs.Polish.SourceOrder

/-!
# Spellings

The grammar of the trees that tokens spell if every separator is in the list of arguments of a call
(`Spells`).  Operands may be left out, and a list is no operand: it is the right side of a call.

The conversion builds a tree that the tokens spell.  While they are taken in, each subtree on the
working stack is spelled by the tokens between two that wait (`Spelt`).  Only where a call ends are
the separators joined that wait in it, so only there the last subtree is a list (`ListedUpTo`).
-/

namespace Reckon

/-! ## The grammar -/

/-- Some tokens, the parentheses among them, spell a tree. -/
inductive Spells : List Token → Tree → Prop
  | gap : Spells [] (.leaf .placeholder)
  | operand {t : Token} (h : t.kind.isOperand) : Spells [t] (.leaf t)
  | group {o c : Token} {ts : List Token} {u : Tree} (ho : o.kind = .opening) (h : Spells ts u)
      (hu : u.kind ≠ .separator) (hc : c.kind = .closing) : Spells (o :: (ts ++ [c])) u
  | operator {j : Token} {ts us : List Token} {l r : Tree}
      (hj : j.kind = .operator ∨ j.kind = .unary) (hl : Spells ts l) (hleft : l.kind ≠ .separator)
      (hr : Spells us r) (hright : r.kind ≠ .separator) : Spells (ts ++ j :: us) (.node j l r)
  | call {f c : Token} {ts : List Token} {r : Tree} (hf : f.kind = .call) (h : Spells ts r)
      (hc : c.kind = .closing) : Spells (f :: (ts ++ [c])) (.node f (.leaf .placeholder) r)
  | separator {sep : Token} {ts us : List Token} {l r : Tree} (hs : sep.kind = .separator)
      (hl : Spells ts l) (hleft : l.kind ≠ .separator) (hr : Spells us r) :
      Spells (ts ++ sep :: us) (.node sep l r)

/-- Every separator is in the list of arguments of a call: the innermost bracket that is open there
is one, where `opened` are open from the start. -/
def InCalls (opened ts : List Token) : Prop :=
  ∀ before sep behind, ts = before ++ sep :: behind → sep.kind = .separator →
    ∃ f outer, openFrom opened before = some (f :: outer) ∧ f.kind = .call

variable {d : Dialect} {t j sep : Token} {ts us : List Token} {u : Tree}

theorem inCalls_iff {opened : List Token} : InCalls opened ts ↔
    ∀ i < ts.length, ts[i]?.any (·.kind == .separator) →
      (openFrom opened (ts.take i)).any fun os => os.head?.any (·.kind == .call) := by
  constructor
  · intro h i hi hs
    rw [List.getElem?_eq_getElem hi] at hs
    obtain ⟨f, outer, hopen, hf⟩ := h (ts.take i) ts[i] (ts.drop (i + 1)) (by simp) (eq_of_beq hs)
    simp [hopen, hf]
  · rintro h before sep behind rfl hs
    have hcall := h before.length (by simp) (by simp [hs])
    rw [List.take_left] at hcall
    cases hopen : openFrom opened before with
    | none => simp [hopen] at hcall
    | some os =>
      cases os with
      | nil => simp [hopen] at hcall
      | cons f outer => exact ⟨f, outer, rfl, by simpa [hopen] using hcall⟩

instance (opened ts : List Token) : Decidable (InCalls opened ts) :=
  decidable_of_iff _ inCalls_iff.symm

theorem not_isMissing_of_shows (h : t.shows) : ¬ t.isMissing := by
  intro hm
  simp [Token.shows, eq_of_beq hm] at h

/-- Parentheses around tokens do not show. -/
theorem shown_group {o c : Token} (ho : o.kind = .opening) (hc : c.kind = .closing)
    (ts : List Token) : shown (o :: (ts ++ [c])) = shown ts := by
  simp [shown, Token.shows, ho, hc]

namespace Spells

/-- Tokens that spell a tree close what they open. -/
theorem openFrom_eq (h : Spells ts u) (opened : List Token) : openFrom opened ts = some opened := by
  induction h generalizing opened with
  | gap => rfl
  | operand hk =>
    rename_i t
    cases hk' : t.kind <;> simp_all [TokenKind.isOperand, openFrom, TokenKind.opensGroup]
  | group ho h hu hc ih => simp [openFrom, ho, hc, TokenKind.opensGroup, openFrom_append, ih]
  | operator hj hl hleft hr hright ihl ihr =>
    rw [openFrom_append, ihl, Option.bind_some]
    rcases hj with hj | hj <;> simp [openFrom, hj, TokenKind.opensGroup, ihr]
  | call hf h hc ih => simp [openFrom, hf, hc, TokenKind.opensGroup, openFrom_append, ih]
  | separator hs hl hleft hr ihl ihr =>
    simp [openFrom_append, ihl, openFrom, hs, TokenKind.opensGroup, ihr]

theorem written_eq (h : Spells ts u) : u.written = shown ts := by
  have hjoint : ∀ {j : Token} {ts us : List Token} {l r : Tree}, j.shows → l.written = shown ts →
      r.written = shown us → (Tree.node j l r).written = shown (ts ++ j :: us) := by
    intro j ts us l r hj hl hr
    rw [Tree.written_node (not_isMissing_of_shows hj), hl, hr, shown_append,
      shown_cons_of_shows hj]
  induction h with
  | gap => rfl
  | operand hk => exact written_leaf_of_isOperand hk
  | group ho h hu hc ih => rw [shown_group ho hc, ih]
  | operator hj hl hleft hr hright ihl ihr =>
    exact hjoint (by rcases hj with hj | hj <;> simp [Token.shows, hj]) ihl ihr
  | call hf h hc ih =>
    rename_i f c ts r
    have hclosing : shown [c] = [] := by simp [shown, Token.shows, hc]
    have hnode : (Tree.node f (.leaf .placeholder) r).written = shown ([] ++ f :: ts) :=
      hjoint (by simp [Token.shows, hf]) Tree.written_placeholder ih
    rw [hnode, List.nil_append, ← List.cons_append, shown_append, hclosing, List.append_nil]
  | separator hs hl hleft hr ihl ihr => exact hjoint (by simp [Token.shows, hs]) ihl ihr

/-- A placeholder is spelled by tokens that do not show. -/
theorem isMissing_iff (h : Spells ts u) : u.isMissing ↔ shown ts = [] := by
  have hjoint : ∀ {j : Token} (ts us : List Token) (l r : Tree), j.shows →
      ((Tree.node j l r).isMissing ↔ shown (ts ++ j :: us) = []) := by
    intro j ts us l r hj
    rw [shown_append, shown_cons_of_shows hj]
    exact iff_of_false (not_isMissing_of_shows hj) (by simp)
  induction h with
  | gap => simp [Tree.isMissing, Tree.token, Token.isMissing, Token.placeholder, shown]
  | operand hk =>
    rename_i t
    cases hk' : t.kind <;>
      simp_all [TokenKind.isOperand, shown, Token.shows, Tree.isMissing, Tree.token,
        Token.isMissing]
  | group ho h hu hc ih =>
    rw [shown_group ho hc]
    exact ih
  | operator hj hl hleft hr hright ihl ihr =>
    exact hjoint _ _ _ _ (by rcases hj with hj | hj <;> simp [Token.shows, hj])
  | call hf h hc ih => exact hjoint [] _ _ _ (by simp [Token.shows, hf])
  | separator hs hl hleft hr ihl ihr => exact hjoint _ _ _ _ (by simp [Token.shows, hs])

/-- Where no group is empty, only placeholders and no tokens at all do not show. -/
theorem shown_eq_nil_iff (h : Spells ts u) (hne : NoEmptyGroup ts)
    (hm : ∀ t ∈ ts, ¬ t.isMissing) : shown ts = [] ↔ ts = [] := by
  refine ⟨fun hshown => ?_, fun hnil => by rw [hnil]; rfl⟩
  rw [← h.isMissing_iff] at hshown
  induction h with
  | gap => rfl
  | operand hk => exact absurd hshown (hm _ List.mem_cons_self)
  | group ho h hu hc ih =>
    have hinner : NoEmptyGroup _ := (List.IsChain.of_cons hne).left_of_append
    have hnil := ih hinner (fun t ht => hm t (by simp [ht])) hshown
    subst hnil
    exact absurd ⟨ho, hc⟩ (List.isChain_cons_cons.mp hne).1
  | operator hj =>
    rcases hj with hj | hj <;> simp [Tree.isMissing, Tree.token, Token.isMissing, hj] at hshown
  | call hf => simp [Tree.isMissing, Tree.token, Token.isMissing, hf] at hshown
  | separator hs => simp [Tree.isMissing, Tree.token, Token.isMissing, hs] at hshown

end Spells

namespace Polish

variable {s s' : Polish} {trees : List Tree} {stack text ops rest : List Token}

/-! ## The working stack -/

/-- The tokens that a working stack and the waiting tokens hold together: each subtree is spelled by
the tokens directly before the one that will join it. -/
inductive Spelt (d : Dialect) : List Tree → List Token → List Token → Prop
  | nil : Spelt d [] [] []
  | opening {trees : List Tree} {stack text : List Token} {o : Token} (h : Spelt d trees stack text)
      (ho : o.kind = .opening) : Spelt d trees (o :: stack) (text ++ [o])
  | call {trees : List Tree} {stack text : List Token} {f : Token} (h : Spelt d trees stack text)
      (hf : f.kind = .call) : Spelt d (.leaf .placeholder :: trees) (f :: stack) (text ++ [f])
  | operator {trees : List Tree} {stack text us : List Token} {j : Token} {left : Tree}
      (h : Spelt d trees stack text) (hj : d.Binds j) (hl : Spells us left)
      (hleft : left.kind ≠ .separator) :
      Spelt d (left :: trees) (j :: stack) (text ++ us ++ [j])
  | separator {trees : List Tree} {stack text us : List Token} {sep : Token} {left : Tree}
      (h : Spelt d trees stack text) (hs : sep.kind = .separator)
      (htop : ∃ o ∈ stack.head?, o.kind = .call ∨ o.kind = .separator) (hl : Spells us left)
      (hleft : left.kind ≠ .separator) :
      Spelt d (left :: trees) (sep :: stack) (text ++ us ++ [sep])

/-- As `Spelt`, with an operand behind all that waits. -/
inductive SpeltUpTo (d : Dialect) : List Tree → List Token → List Token → Prop
  | mk {trees : List Tree} {stack text us : List Token} {last : Tree} (h : Spelt d trees stack text)
      (hlast : Spells us last) (hne : last.kind ≠ .separator) :
      SpeltUpTo d (last :: trees) stack (text ++ us)

/-- As `Spelt`, with an operand or a list behind all that waits, a list only in a call. -/
inductive ListedUpTo (d : Dialect) : List Tree → List Token → List Token → Prop
  | mk {trees : List Tree} {stack text us : List Token} {last : Tree} (h : Spelt d trees stack text)
      (hlast : Spells us last)
      (hlist : last.kind = .separator → ∃ o ∈ stack.head?, o.kind = .call ∨ o.kind = .separator) :
      ListedUpTo d (last :: trees) stack (text ++ us)

theorem Spelt.mem_stack (h : Spelt d trees stack text) :
    ∀ o ∈ stack, o.kind.opensGroup ∨ d.Binds o ∨ o.kind = .separator := by
  induction h with
  | nil => simp
  | opening h ho ih => exact List.forall_mem_cons.mpr ⟨.inl (by rw [ho]; rfl), ih⟩
  | call h hf ih => exact List.forall_mem_cons.mpr ⟨.inl (by rw [hf]; rfl), ih⟩
  | operator h hj hl hleft ih => exact List.forall_mem_cons.mpr ⟨.inr (.inl hj), ih⟩
  | separator h hs htop hl hleft ih => exact List.forall_mem_cons.mpr ⟨.inr (.inr hs), ih⟩

/-- Directly in a call, with no operator on top, the call or a separator is on top. -/
theorem Spelt.top_of_call (h : Spelt d trees stack text) (hop : ∀ o ∈ stack.head?, ¬ d.Binds o)
    (hcall : ∃ f ∈ (groups stack).head?, f.kind = .call) :
    ∃ o ∈ stack.head?, o.kind = .call ∨ o.kind = .separator := by
  cases h with
  | nil => simp [groups] at hcall
  | opening h ho =>
    have hk : TokenKind.opening.opensGroup := rfl
    simp [groups, ho, hk] at hcall
  | call h hf => exact ⟨_, rfl, .inl hf⟩
  | operator h hj hl hleft => exact absurd hj (hop _ rfl)
  | separator h hs htop hl hleft => exact ⟨_, rfl, .inr hs⟩

namespace SpeltUpTo

theorem join_operator (h : SpeltUpTo d trees (j :: stack) text)
    (hj : j.kind = .operator ∨ j.kind = .unary) : SpeltUpTo d (Tree.shift trees j) stack text := by
  obtain @⟨_, _, _, us, last, hspelt, hlast, hne⟩ := h
  cases hspelt with
  | opening h ho => simp [ho] at hj
  | call h hf => simp [hf] at hj
  | separator h hs htop hl hleft => simp [hs] at hj
  | @operator _ _ text ts _ left h hb hl hleft =>
    have hjoint : ¬ j.kind.isOperand ∧ j.kind ≠ .separator := by
      rcases hj with hj | hj <;> simp [hj, TokenKind.isOperand]
    rw [shift_joint hjoint.1]
    have hnode := SpeltUpTo.mk h (.operator hj hl hleft hlast hne) hjoint.2
    simpa using hnode

theorem mem_stack (h : SpeltUpTo d trees stack text) :
    ∀ o ∈ stack, o.kind.opensGroup ∨ d.Binds o ∨ o.kind = .separator := by
  obtain ⟨h, -, -⟩ := h
  exact h.mem_stack

/-- What goes out before an operator or a separator are operators. -/
theorem popped_yielding (h : SpeltUpTo d trees (ops ++ rest) text)
    (hops : ∀ o ∈ ops, yields d (d.rank t) o) (ht : d.Binds t ∨ t.kind = .separator) :
    SpeltUpTo d (ops.foldl Tree.shift trees) rest text := by
  induction ops generalizing trees with
  | nil => exact h
  | cons op ops ih =>
    obtain ⟨hop, hops⟩ := List.forall_mem_cons.mp hops
    rcases h.mem_stack op List.mem_cons_self with hk | hk | hk
    · simp [yields, hk] at hop
    · exact ih (h.join_operator hk.1) hops
    · exact absurd hop (not_yields_of_separator hk ht)

theorem wait_operator (h : SpeltUpTo d trees stack text) (ht : d.Binds t) :
    Spelt d trees (t :: stack) (text ++ [t]) := by
  obtain ⟨h, hlast, hne⟩ := h
  exact h.operator ht hlast hne

theorem wait_separator (h : SpeltUpTo d trees stack text) (hs : sep.kind = .separator)
    (hop : ∀ o ∈ stack.head?, ¬ d.Binds o) (hcall : ∃ f ∈ (groups stack).head?, f.kind = .call) :
    Spelt d trees (sep :: stack) (text ++ [sep]) := by
  obtain ⟨h, hlast, hne⟩ := h
  exact h.separator hs (h.top_of_call hop hcall) hlast hne

/-- A unary operator behind its operand joins it at once. -/
theorem cap (h : SpeltUpTo d trees stack text) (ht : t.kind = .unary) :
    SpeltUpTo d (Tree.shift (Tree.shift trees .placeholder) t) stack (text ++ [t]) := by
  obtain @⟨_, _, _, us, last, h, hlast, hne⟩ := h
  have hk : ¬ t.kind.isOperand ∧ t.kind ≠ .separator := by simp [ht, TokenKind.isOperand]
  rw [shift_placeholder, shift_joint hk.1, List.append_assoc]
  exact .mk h (.operator (.inr ht) hlast hne .gap (by decide)) hk.2

theorem listed (h : SpeltUpTo d trees stack text) : ListedUpTo d trees stack text := by
  obtain ⟨h, hlast, hne⟩ := h
  exact .mk h hlast fun hs => absurd hs hne

end SpeltUpTo

namespace ListedUpTo

theorem join (h : ListedUpTo d trees (j :: stack) text) (hj : waits j) :
    ListedUpTo d (Tree.shift trees j) stack text := by
  obtain @⟨_, _, _, us, last, hspelt, hlast, hlist⟩ := h
  cases hspelt with
  | opening h ho => simp [waits, ho, TokenKind.opensGroup] at hj
  | call h hf => simp [waits, hf, TokenKind.opensGroup] at hj
  | operator h hb hl hleft =>
    have hne : last.kind ≠ .separator := by
      intro hs
      obtain ⟨o, ho, hk⟩ := hlist hs
      cases ho
      have hkind := hb.1
      rcases hk with hk | hk <;> simp [hk] at hkind
    exact ((SpeltUpTo.mk (h.operator hb hl hleft) hlast hne).join_operator hb.1).listed
  | @separator _ _ text ts _ left h hs htop hl hleft =>
    rw [shift_joint (by simp [hs, TokenKind.isOperand])]
    have hnode := ListedUpTo.mk h (.separator hs hl hleft hlast) fun _ => htop
    simpa using hnode

theorem popped_waiting (h : ListedUpTo d trees (ops ++ rest) text) (hops : ∀ o ∈ ops, waits o) :
    ListedUpTo d (ops.foldl Tree.shift trees) rest text := by
  induction ops generalizing trees with
  | nil => exact h
  | cons op ops ih =>
    obtain ⟨hop, hops⟩ := List.forall_mem_cons.mp hops
    exact ih (h.join hop) hops

theorem close_group {o c : Token} (h : ListedUpTo d trees (o :: stack) text)
    (ho : o.kind = .opening) (hc : c.kind = .closing) :
    SpeltUpTo d trees stack (text ++ [c]) := by
  obtain @⟨_, _, _, us, last, hspelt, hlast, hlist⟩ := h
  cases hspelt with
  | call h hf => simp [ho] at hf
  | operator h hb hl hleft =>
    have hkind := hb.1
    simp [ho] at hkind
  | separator h hs htop hl hleft => simp [ho] at hs
  | opening h ho' =>
    have hne : last.kind ≠ .separator := by
      intro hs
      obtain ⟨o', ho', hk⟩ := hlist hs
      cases ho'
      simp [ho] at hk
    have hgroup := SpeltUpTo.mk h (.group ho hlast hne hc) hne
    simpa using hgroup

theorem close_call {f c : Token} (h : ListedUpTo d trees (f :: stack) text) (hf : f.kind = .call)
    (hc : c.kind = .closing) : SpeltUpTo d (Tree.shift trees f) stack (text ++ [c]) := by
  obtain @⟨_, _, _, us, last, hspelt, hlast, hlist⟩ := h
  cases hspelt with
  | opening h ho => simp [hf] at ho
  | operator h hb hl hleft =>
    have hkind := hb.1
    simp [hf] at hkind
  | separator h hs htop hl hleft => simp [hf] at hs
  | call h hf' =>
    rw [shift_joint (by simp [hf, TokenKind.isOperand])]
    have hcall : (Tree.node f (.leaf .placeholder) last).kind ≠ .separator := by
      simp [Tree.kind, Tree.token, hf]
    have hnode := SpeltUpTo.mk h (.call hf hlast hc) hcall
    simpa using hnode

theorem spells {tree : Tree} (h : ListedUpTo d [tree] [] text) : Spells text tree := by
  obtain ⟨h, hlast, -⟩ := h
  cases h
  exact hlast

end ListedUpTo

/-! ## One token -/

/-- What is spelled before the token `previous` was taken in, and what is behind it. -/
def SpeltBehind (d : Dialect) (previous : Option Token) (trees : List Tree)
    (stack text : List Token) : Prop :=
  if d.expectsOperand previous then Spelt d trees stack text else SpeltUpTo d trees stack text

theorem SpeltBehind.spelt (h : SpeltBehind d s.previous trees stack text)
    (hdue : d.expectsOperand s.previous) : Spelt d trees stack text := by
  rwa [SpeltBehind, if_pos hdue] at h

theorem SpeltBehind.filled (h : SpeltBehind d s.previous s.forest s.stack text) :
    SpeltUpTo d (forestOf (s.filled d)) s.stack text := by
  unfold SpeltBehind at h
  rw [forestOf_filled]
  by_cases hdue : d.expectsOperand s.previous
  · rw [if_pos hdue] at h ⊢
    have hgap := SpeltUpTo.mk h .gap (by decide)
    rwa [List.append_nil] at hgap
  · rwa [if_neg hdue] at h ⊢

/-- A step takes its token in behind what is spelled. -/
theorem SpeltBehind.step (h : SpeltBehind d s.previous s.forest s.stack text)
    (hstep : Step d s t s') (hm : meets d s.previous t = 0)
    (hempty : ¬ (s.previous.any (·.kind == .opening) ∧ t.kind = .closing))
    (hbinds : t.kind = .operator ∨ t.kind = .unary → d.Binds t)
    (hcall : t.kind = .separator → ∃ f ∈ (groups s.stack).head?, f.kind = .call) :
    SpeltBehind d (some t) s'.forest s'.stack (text ++ [t]) := by
  have hgrows := hstep.grows hm hempty
  generalize s'.forest = trees, s'.stack = stack at hgrows
  have hfilled := h.filled
  unfold SpeltBehind
  cases hgrows with
  | operand hk hdue hends =>
    have hne : t.kind ≠ .separator := by
      intro hs
      simp [hs, TokenKind.isOperand] at hk
    rw [if_neg hends]
    exact .mk (h.spelt hdue) (.operand hk) hne
  | opening hk hdue hends =>
    rw [if_pos hends]
    exact (h.spelt hdue).opening hk
  | call hk hdue hends =>
    rw [if_pos hends]
    exact (h.spelt hdue).call hk
  | before hk hb hdue hends =>
    have hwait := (h.spelt hdue).operator (hbinds (.inr hk)) .gap (by decide)
    rwa [if_pos hends, ← List.append_nil text]
  | after hk hb hs hops hends =>
    rw [hs] at hfilled
    rw [if_neg hends]
    exact (hfilled.popped_yielding hops.1 (.inl (hbinds (.inr hk)))).cap hk
  | @binary ops rest hk hs hops hends =>
    rw [hs] at hfilled
    rw [if_pos hends]
    by_cases hsep : t.kind = .separator
    · have hpopped := hfilled.popped_yielding hops.1 (.inr hsep)
      have hgroups : groups s.stack = groups rest := by
        rw [hs, groups_append_of_waits (waits_of_splitsAt hops)]
      refine hpopped.wait_separator hsep (fun o ho hb => ?_) (hgroups ▸ hcall hsep)
      exact hops.2 o ho (yields_separator hsep hb)
    · have hop : t.kind = .operator := by
        cases hk' : t.kind <;> simp_all [TokenKind.isBinary]
      have hb := hbinds (.inl hop)
      exact (hfilled.popped_yielding hops.1 (.inl hb)).wait_operator hb
  | endGroup hk hs hops ho hends =>
    rw [hs] at hfilled
    rw [if_neg hends]
    exact (hfilled.listed.popped_waiting hops).close_group ho hk
  | endCall hk hs hops hf hends =>
    rw [hs] at hfilled
    rw [if_neg hends]
    exact (hfilled.listed.popped_waiting hops).close_call hf hk

/-! ## All tokens -/

theorem Step.inCalls (hstep : Step d s t s') (h : InCalls (groups s.stack) (t :: ts)) :
    InCalls (groups s'.stack) ts := by
  intro before sep behind hts hs
  rw [← openFrom_step hstep before]
  exact h (t :: before) sep behind (by rw [hts]; rfl) hs

theorem SpeltBehind.run (h : SpeltBehind d s.previous s.forest s.stack text)
    (hts : NoEmptyGroup (s.previous.toList ++ ts))
    (hj : d.juxtapositions (s.previous.toList ++ ts) = 0)
    (hbinds : ∀ t ∈ ts, t.kind = .operator ∨ t.kind = .unary → d.Binds t)
    (hcalls : InCalls (groups s.stack) ts) (hrun : run d s ts = .ok s') :
    SpeltBehind d s'.previous s'.forest s'.stack (text ++ ts) := by
  induction ts generalizing s text with
  | nil =>
    cases hrun
    simpa using h
  | cons t ts ih =>
    obtain ⟨s₁, h₁, hrun₁⟩ := step_of_run_cons hrun
    rw [juxtapositions_cons] at hj
    have hp := h₁.previous_eq
    have hcall : t.kind = .separator → ∃ f ∈ (groups s.stack).head?, f.kind = .call := by
      intro hs
      obtain ⟨f, outer, hopen, hf⟩ := hcalls [] t ts rfl hs
      exact ⟨f, by rw [Option.some.inj hopen]; rfl, hf⟩
    obtain ⟨hbinds₁, hbinds⟩ := List.forall_mem_cons.mp hbinds
    have hstep := h.step h₁ (by omega) hts.head hbinds₁ hcall
    rw [← hp] at hstep
    have hfin := ih hstep (by rw [hp]; exact hts.tail)
      (by rw [hp]; exact Nat.eq_zero_of_add_eq_zero_left hj) hbinds (h₁.inCalls hcalls) hrun₁
    rwa [List.append_assoc] at hfin

/-- Without empty groups and with all separators in calls, tokens spell the tree that is built. -/
theorem spells_of_noEmptyGroup {polish : List Token} {tree : Tree} (h : NoEmptyGroup ts)
    (hbinds : ∀ t ∈ ts, t.kind = .operator ∨ t.kind = .unary → d.Binds t)
    (hcalls : InCalls [] ts) (hp : ofTokens d ts = .ok polish)
    (ht : Tree.ofPolish polish = .ok tree) : Spells ts tree := by
  obtain ⟨hj, s, hrun, hwaits, hroot⟩ := run_of_ofPolish h hp ht
  have hstart : SpeltBehind d start.previous start.forest start.stack [] := Spelt.nil
  have hout := (hstart.run h hj hbinds hcalls hrun).filled.listed
  rw [← List.append_nil s.stack] at hout
  have hfin := hout.popped_waiting hwaits
  rw [hroot, List.nil_append] at hfin
  exact hfin.spells

end Polish

end Reckon
