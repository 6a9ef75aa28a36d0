import Reckon.Check.Report
import Reckon.Proofs.Polish.SourceOrder
import Reckon.Proofs.Term.Reading

/-!
# What goes unread

Evaluation does not follow every edge of a tree.  In a well-formed tree those that it leaves out
lead to placeholders, up to separators: it follows a chain of them below a call, and that is where
the check of separators wants them.  A list in parentheses can still be an argument itself, and
nothing in it is read.
-/

namespace Reckon

variable {d : Dialect} {t l r : Tree} {parent : Option Token}

/-- Whether evaluation takes something from tokens of this kind. -/
def TokenKind.isRead : TokenKind → Bool
  | .literal | .identifier | .operator | .unary | .call => true
  | .opening | .closing | .separator | .missing => false

/-- Every token from which evaluation takes something is that of a subtree in the list. -/
def AccountsFor (us : List Tree) (ts : List Token) : Prop :=
  ∀ t ∈ ts, t.kind.isRead → ∃ u ∈ us, u.token = t

namespace AccountsFor

variable {us vs : List Tree} {ts ts' : List Token}

theorem nil (us : List Tree) : AccountsFor us [] := fun _ h => (nomatch h)

theorem mono (h : AccountsFor us ts) (hsub : us ⊆ vs) : AccountsFor vs ts := by
  intro t ht hread
  obtain ⟨u, hu, rfl⟩ := h t ht hread
  exact ⟨u, hsub hu, rfl⟩

theorem append (h : AccountsFor us ts) (h' : AccountsFor us ts') : AccountsFor us (ts ++ ts') :=
  fun t ht => (List.mem_append.mp ht).elim (h t) (h' t)

theorem insert {t : Token} (h : AccountsFor us (ts ++ ts'))
    (ht : t.kind.isRead → ∃ u ∈ us, u.token = t) : AccountsFor us (ts ++ t :: ts') := by
  intro t' ht'
  rcases List.mem_append.mp ht' with hmem | hmem
  · exact h t' (List.mem_append_left _ hmem)
  · rcases List.mem_cons.mp hmem with rfl | hmem
    · exact ht
    · exact h t' (List.mem_append_right _ hmem)

end AccountsFor

/-! ## Separators in their places -/

/-- A separator is below a call or another separator, and a call has no list among its
arguments. -/
structure Tree.Visit.InPlace (v : Visit) : Prop where
  separator : v.tree.kind = .separator →
    v.parent.any fun p => p.kind == .call || p.kind == .separator
  call : v.tree.kind = .call → ∀ a ∈ v.tree.arguments, a.kind ≠ .separator

theorem Tree.Visit.InPlace.ne_separator {p : Token} (h : Visit.InPlace ⟨t, some p⟩)
    (hcall : p.kind ≠ .call) (hsep : p.kind ≠ .separator) : t.kind ≠ .separator := by
  intro hk
  have hp := h.separator hk
  simp [hcall, hsep] at hp

namespace Tree

/-- No argument of a call is itself a list of arguments. -/
def FlatCalls (t : Tree) : Prop :=
  ∀ v ∈ t.visitsOf .call, ∀ a ∈ v.tree.arguments, a.kind ≠ .separator

instance (t : Tree) : Decidable t.FlatCalls :=
  inferInstanceAs (Decidable (∀ v ∈ t.visitsOf .call, ∀ a ∈ v.tree.arguments, a.kind ≠ .separator))

/-- Where a well-formed tree is missing there is nothing to read. -/
theorem WellFormed.written_eq_nil (h : t.WellFormed d) (hm : t.isMissing) : t.written = [] := by
  obtain ⟨token, htoken, rfl⟩ := h.eq_leaf_of_isMissing hm
  rw [written_leaf, if_pos htoken]

/-- A node that is no call and no separator takes its operands from the sides that its token uses,
and nothing is written on the other. -/
theorem accountsFor_operands {j : Token} (hj : d.Joins j l r) (hwl : l.WellFormed d)
    (hwr : r.WellFormed d) (hcall : j.kind ≠ .call) (hsep : j.kind ≠ .separator)
    (hl : AccountsFor (l.read d) l.written) (hr : AccountsFor (r.read d) r.written) :
    AccountsFor (((node j l r).operands d).flatMap (read d)) (l.written ++ r.written) := by
  rw [Dialect.Joins] at hj
  rw [operands]
  cases hk : j.kind with
  | operator =>
    have hboth := List.subset_append_left (l.read d) (r.read d)
    have hboth' := List.subset_append_right (l.read d) (r.read d)
    simpa using (hl.mono hboth).append (hr.mono hboth')
  | unary =>
    rw [hk] at hj
    cases hs : d.sideOf j.text with
    | before =>
      rw [hs] at hj
      simpa [hwl.written_eq_nil hj] using hr
    | after =>
      rw [hs] at hj
      simpa [hwr.written_eq_nil hj] using hl
  | call => exact absurd hk hcall
  | separator => exact absurd hk hsep
  | literal | identifier | opening | closing | missing => simp [hk] at hj

/-- A call takes its arguments from its right side. -/
theorem accountsFor_arguments {j : Token} (hwr : r.WellFormed d)
    (hargs : ∀ a ∈ (node j l r).arguments, a.kind ≠ .separator)
    (hr : (∀ a ∈ r.chain, a.kind ≠ .separator) →
      AccountsFor (r.chain.flatMap (read d)) r.written) :
    AccountsFor ((node j l r).arguments.flatMap (read d)) r.written := by
  by_cases hm : r.isMissing
  · rw [hwr.written_eq_nil hm]
    exact .nil _
  · have harguments : (node j l r).arguments = r.chain := if_neg hm
    rw [harguments] at hargs ⊢
    exact hr hargs

/-- The links of a chain account for the whole chain, if none of them is a list itself. -/
theorem accountsFor_chain (hshape : t.WellFormed d)
    (hplace : ∀ v ∈ t.visitsOnto parent [], v.InPlace)
    (hflat : ∀ a ∈ t.chain, a.kind ≠ .separator) :
    AccountsFor (t.chain.flatMap (read d)) t.written := by
  induction t generalizing parent with
  | leaf token =>
    rw [written_leaf, chain, List.flatMap_singleton]
    split
    · exact .nil _
    · exact fun t ht _ => ⟨_, mem_read_self d _, (List.mem_singleton.mp ht).symm⟩
  | node j l r ihl ihr =>
    obtain ⟨hj, hwl, hwr⟩ := hshape
    have hplacel : ∀ v ∈ l.visitsOnto (some j) [], v.InPlace := fun v hv =>
      hplace v (mem_visitsOnto_node.mpr (.inl hv))
    have hplacer : ∀ v ∈ r.visitsOnto (some j) [], v.InPlace := fun v hv =>
      hplace v (mem_visitsOnto_node.mpr (.inr (.inl hv)))
    -- a side that is no list accounts for all that is written of it
    have hleft : l.kind ≠ .separator → AccountsFor (l.read d) l.written := fun hne => by
      simpa [chain_of_ne_separator hne, hne] using ihl hwl hplacel
    have hright : r.kind ≠ .separator → AccountsFor (r.read d) r.written := fun hne => by
      simpa [chain_of_ne_separator hne, hne] using ihr hwr hplacer
    rw [written_node hj.not_isMissing]
    by_cases hsep : j.kind = .separator
    · have hchain : (node j l r).chain = l :: r.chain := if_pos hsep
      rw [hchain] at hflat ⊢
      obtain ⟨hfl, hfr⟩ := List.forall_mem_cons.mp hflat
      have hunread : ¬ j.kind.isRead := by simp [hsep, TokenKind.isRead]
      exact (((hleft hfl).mono (List.subset_append_left ..)).append
        ((ihr hwr hplacer hfr).mono (List.subset_append_right ..))).insert
          fun hread => absurd hread hunread
    have hoperands : AccountsFor (((node j l r).operands d).flatMap (read d))
        (l.written ++ r.written) := by
      by_cases hcall : j.kind = .call
      · have hl : l.written = [] := by
          rw [Dialect.Joins, hcall] at hj
          exact hwl.written_eq_nil hj
        rw [hl, List.nil_append, operands, hcall]
        exact accountsFor_arguments hwr ((hplace _ (mem_visitsOnto_self _ parent)).call hcall)
          (ihr hwr hplacer)
      · exact accountsFor_operands hj hwl hwr hcall hsep
          (hleft ((hplacel _ (mem_visitsOnto_self _ _)).ne_separator hcall hsep))
          (hright ((hplacer _ (mem_visitsOnto_self _ _)).ne_separator hcall hsep))
    have hne : (node j l r).kind ≠ .separator := hsep
    rw [chain_of_ne_separator hne, List.flatMap_singleton, read_eq]
    exact (hoperands.mono (List.subset_append_left ..)).insert fun _ =>
      ⟨_, List.mem_append_right _ List.mem_cons_self, rfl⟩

end Tree

/-! ## What passes every check -/

theorem SeparatorUse.isValid_of_passes (h : (inspect t).passes) :
    ∀ v ∈ t.visitsOf .separator, (SeparatorUse.mk v.tree.token v.parent).isValid := by
  intro v hv
  exact Verdicts.passes_ofTest.mp h _ (List.mem_map_of_mem hv)

theorem Tree.inPlace_of_passes (h : (SeparatorUse.inspect t).passes) (hflat : t.FlatCalls) :
    ∀ v ∈ t.visits, v.InPlace := by
  intro v hv
  refine ⟨fun hk => ?_, fun hk => ?_⟩
  · exact SeparatorUse.isValid_of_passes h v (mem_visitsOf.mpr ⟨hv, hk⟩)
  · exact hflat v (mem_visitsOf.mpr ⟨hv, hk⟩)

/-- The root of a tree that passes the check is no separator. -/
theorem Tree.ne_separator_of_passes (h : (SeparatorUse.inspect t).passes) :
    t.kind ≠ .separator := by
  intro hk
  have hroot := mem_visitsOf.mpr ⟨mem_visitsOnto_self t none, hk⟩
  cases SeparatorUse.isValid_of_passes h _ hroot

variable {c : Checker} {source : String} {p : Parsed}

/-- A text that passes has a tree, and no separator in it is out of place. -/
theorem Checker.parse_of_passes (hall : ∀ k, k ∈ c.checks)
    (h : (c.check d source).passes) :
    ∃ p, d.parse source = .ok p ∧ (SeparatorUse.inspect p.tree).passes := by
  rw [check] at h
  cases hp : d.parse source with
  | error f => simp [hp, Report.passes] at h
  | ok p =>
    refine ⟨p, rfl, ?_⟩
    simp only [hp, Report.passes, Report.failedChecks, Bool.and_eq_true, List.isEmpty_iff,
      List.filter_eq_nil_iff] at h
    simpa [checkTree, ifSelected, hall, Report.fails] using h.2 .separators (Check.mem_all _)

/-- **Nothing goes unread** in a text that passes every check, if no empty group takes the place of
an operand and no argument is itself a list of arguments.  Of the checks, the one of separators is
enough for this. -/
theorem Checker.accountsFor_of_passes (hall : ∀ k, k ∈ c.checks)
    (h : (c.check d source).passes) :
    ∃ p, d.parse source = .ok p ∧
      (d.sparesEmptyGroups none (d.tokens source) → p.tree.FlatCalls →
        AccountsFor (p.tree.read d) (d.tokens source)) := by
  obtain ⟨p, hp, hsep⟩ := parse_of_passes hall h
  refine ⟨p, hp, fun hspares hflat t ht hread => ?_⟩
  rw [← (parse_eq_ok hp).1] at hspares ht
  have hne := Tree.ne_separator_of_passes hsep
  have hwhole := Tree.accountsFor_chain (wellFormed_of_parse hp hspares)
    (Tree.inPlace_of_passes hsep hflat) (by simpa [Tree.chain_of_ne_separator hne] using hne)
  rw [Tree.chain_of_ne_separator hne, List.flatMap_singleton, written_of_parse hp hspares] at hwhole
  refine hwhole t (List.mem_filter.mpr ⟨ht, ?_⟩) hread
  cases hk : t.kind <;> simp_all [TokenKind.isRead]

/-- Evaluation reads no deeper than the operands of the root, and some token is at none of them. -/
def Parsed.LeavesUnread (d : Dialect) (p : Parsed) : Prop :=
  (∀ u ∈ p.tree.operands d, u.operands d = []) ∧
    ∃ t ∈ p.tokens, t.kind.isRead ∧ ∀ u ∈ p.tree.operands d ++ [p.tree], u.token ≠ t

instance (d : Dialect) (p : Parsed) : Decidable (p.LeavesUnread d) :=
  inferInstanceAs (Decidable (_ ∧ ∃ t ∈ p.tokens, _ ∧ ∀ u ∈ p.tree.operands d ++ [p.tree], _))

theorem Parsed.LeavesUnread.not_accountsFor {p' : Parsed} (h : p.LeavesUnread d)
    (hp : d.parse source = .ok p) (hp' : d.parse source = .ok p') :
    ¬ AccountsFor (p'.tree.read d) (d.tokens source) := by
  intro haccounts
  rw [hp] at hp'
  cases hp'
  obtain ⟨hshallow, t, ht, hread, hnone⟩ := h
  rw [(parse_eq_ok hp).1] at ht
  obtain ⟨u, hu, htoken⟩ := haccounts t ht hread
  refine hnone u ?_ htoken
  rw [Tree.read_eq] at hu
  rcases List.mem_append.mp hu with hu | hu
  · obtain ⟨v, hv, hu⟩ := List.mem_flatMap.mp hu
    rw [Tree.read_of_operands_nil (hshallow v hv), List.mem_singleton] at hu
    exact List.mem_append_left _ (hu ▸ hv)
  · exact List.mem_append_right _ hu

/-- Runs every check and knows one function with a fixed number of arguments. -/
def Checker.knowing (name : String) (count : Nat) : Checker :=
  ⟨Check.all, Contracts.empty.setFixed name count, .strict, NamePolicy.strict.knowing [name]⟩

/-- The empty group of `-f(1, 2!) * () 3` is in nobody's place. -/
theorem Checker.accountsFor_past_empty_group :
    ((knowing "f" 2).check .standard "-f(1, 2!) * () 3").passes ∧
    ∃ p, Dialect.standard.parse "-f(1, 2!) * () 3" = .ok p ∧
      Dialect.standard.sparesEmptyGroups none (Dialect.standard.tokens "-f(1, 2!) * () 3") ∧
      p.tree.FlatCalls ∧
      AccountsFor (p.tree.read .standard) (Dialect.standard.tokens "-f(1, 2!) * () 3") := by
  have hpasses : ((knowing "f" 2).check .standard "-f(1, 2!) * () 3").passes := by cbv
  have hspares : Dialect.standard.sparesEmptyGroups none
      (Dialect.standard.tokens "-f(1, 2!) * () 3") := by cbv
  have hflat : ∃ p, Dialect.standard.parse "-f(1, 2!) * () 3" = .ok p ∧ p.tree.FlatCalls :=
    ⟨_, by cbv, by decide⟩
  obtain ⟨p, hp, hwhole⟩ := accountsFor_of_passes Check.mem_all hpasses
  obtain ⟨p', hp', hflat⟩ := hflat
  rw [hp] at hp'
  cases hp'
  exact ⟨hpasses, p, hp, hspares, hflat, hwhole hspares hflat⟩

/-- In `5 f(())` the number stands on the left of the call, since the empty group brings nothing for
its right.  In `f((1,2),3)` there is no empty group, but the list in parentheses is an argument. -/
theorem Checker.not_accountsFor_beside_call :
    (¬ ∀ (d : Dialect) (c : Checker) (source : String), (∀ k, k ∈ c.checks) →
      (c.check d source).passes →
      ∃ p, d.parse source = .ok p ∧ AccountsFor (p.tree.read d) (d.tokens source)) ∧
    ¬ ∀ (d : Dialect) (c : Checker) (source : String), (∀ k, k ∈ c.checks) →
      (c.check d source).passes → d.sparesEmptyGroups none (d.tokens source) →
      ∃ p, d.parse source = .ok p ∧ AccountsFor (p.tree.read d) (d.tokens source) := by
  constructor
  · intro h
    have hpasses : ((knowing "f" 0).check .standard "5 f(())").passes := by cbv
    have hunread : ∃ p, Dialect.standard.parse "5 f(())" = .ok p ∧ p.LeavesUnread .standard :=
      ⟨_, by cbv, by decide⟩
    obtain ⟨p, hp, hunread⟩ := hunread
    obtain ⟨p', hp', hread⟩ := h _ _ _ Check.mem_all hpasses
    exact hunread.not_accountsFor hp hp' hread
  · intro h
    have hpasses : ((knowing "f" 2).check .standard "f((1,2),3)").passes := by cbv
    have hspares : Dialect.standard.sparesEmptyGroups none
        (Dialect.standard.tokens "f((1,2),3)") := by cbv
    have hunread : ∃ p, Dialect.standard.parse "f((1,2),3)" = .ok p ∧ p.LeavesUnread .standard :=
      ⟨_, by cbv, by decide⟩
    obtain ⟨p, hp, hunread⟩ := hunread
    obtain ⟨p', hp', hread⟩ := h _ _ _ Check.mem_all hpasses hspares
    exact hunread.not_accountsFor hp hp' hread

end Reckon
