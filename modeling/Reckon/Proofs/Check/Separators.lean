import Reckon.Check.Separators
import Reckon.Proofs.Polish.Looseness
import Reckon.Proofs.Polish.SourceOrder
import Reckon.Proofs.Scan.Tokens

/-!
# The check of separators

The check asks what a separator hangs below in the tree.  In the text this depends on the brackets
around it and on what stands next to them.
-/

namespace Reckon

variable {d : Dialect} {source : String} {p : Parsed} {ts : List Token} {sep : Token}
  {es es' : List Enclosure}

/-! ## Separators in the text -/

/-- A separator among some tokens, with what encloses it there. -/
def Separates (ts : List Token) (sep : Token) (es : List Enclosure) : Prop :=
  ∃ before behind, ts = before ++ sep :: behind ∧ sep.kind = .separator ∧
    es = enclosures before.reverse (sep :: behind)

theorem Separates.unique (hts : ts.Nodup) (h : Separates ts sep es) (h' : Separates ts sep es') :
    es = es' := by
  obtain ⟨before, behind, rfl, -, rfl⟩ := h
  obtain ⟨before', behind', heq, -, rfl⟩ := h'
  rw [heq, List.nodup_append] at hts
  obtain ⟨-, hbehind, hdisjoint⟩ := hts
  have hsplit := (List.append_cons_inj_of_notMem (fun hmem => hdisjoint sep hmem sep
    List.mem_cons_self rfl) (List.nodup_cons.mp hbehind).1).mp heq.symm
  rw [hsplit.1, hsplit.2.2]

theorem exists_separates (h : sep ∈ ts) (hs : sep.kind = .separator) :
    ∃ es, Separates ts sep es := by
  obtain ⟨before, behind, rfl⟩ := List.append_of_mem h
  exact ⟨_, before, behind, rfl, hs, rfl⟩

theorem separates_at {i : Nat} (h : ts[i]? = some sep) (hs : sep.kind = .separator) :
    Separates ts sep (enclosures (ts.take i).reverse (ts.drop i)) := by
  obtain ⟨hi, hget⟩ := List.getElem?_eq_some_iff.mp h
  have hdrop : ts.drop i = sep :: ts.drop (i + 1) := by
    rw [List.drop_eq_getElem_cons hi, hget]
  refine ⟨ts.take i, ts.drop (i + 1), ?_, hs, by rw [hdrop]⟩
  rw [← hdrop, List.take_append_drop]

/-- An enclosure that is divided has a first separator. -/
theorem Separates.exists_first {e : Enclosure} {outer : List Enclosure}
    (h : Separates ts sep (e :: outer)) (hd : e.divided) :
    ∃ first, Separates ts first ({ e with divided := false } :: outer) := by
  obtain ⟨before, behind, rfl, -, hes⟩ := h
  have hhead : (enclosures before.reverse (sep :: behind))[0]? = some e := by
    rw [← hes]
    rfl
  obtain ⟨between, first, rest, hbefore, hk, hfirst⟩ := exists_first_separator hhead hd
  rw [← hes] at hfirst
  refine ⟨first, rest.reverse, between.reverse ++ sep :: behind, ?_, hk, ?_⟩
  · rw [← List.reverse_reverse before, hbefore]
    simp
  · rw [List.reverse_reverse, hfirst]
    rfl

/-! ## Separators in the tree -/

/-- The tokens of a tree are those of its subtrees. -/
theorem Tree.mem_inorder {t : Tree} {token : Token} (parent : Option Token) :
    token ∈ t.inorder ↔ ∃ v ∈ t.visitsOnto parent [], v.tree.token = token := by
  induction t generalizing parent with
  | leaf u =>
    simp only [inorder_leaf, List.mem_singleton, mem_visitsOnto_leaf, exists_eq_left]
    exact eq_comm
  | node u l r ihl ihr =>
    rw [inorder_node, List.mem_append, List.mem_cons, ihl (some u), ihr (some u)]
    constructor
    · rintro (⟨v, hv, ht⟩ | rfl | ⟨v, hv, ht⟩)
      · exact ⟨v, mem_visitsOnto_node.mpr (.inl hv), ht⟩
      · exact ⟨_, mem_visitsOnto_self _ _, rfl⟩
      · exact ⟨v, mem_visitsOnto_node.mpr (.inr (.inl hv)), ht⟩
    · rintro ⟨v, hv, ht⟩
      rcases mem_visitsOnto_node.mp hv with hv | hv | rfl
      · exact .inl ⟨v, hv, ht⟩
      · exact .inr (.inr ⟨v, hv, ht⟩)
      · exact .inr (.inl ht.symm)

theorem Tree.mem_written {t : Tree} (hs : sep.kind = .separator) :
    sep ∈ t.written ↔ sep ∈ t.inorder := by
  simp [written, Token.isMissing, hs]

namespace SeparatorUse

variable {t : Tree} {u : SeparatorUse} {V : Token → Prop}

theorem mem_valid : u ∈ (inspect t).valid ↔
    (∃ v ∈ t.visitsOf .separator, ⟨v.tree.token, v.parent⟩ = u) ∧ u.isValid := by
  simp [inspect, Verdicts.ofTest]

theorem mem_invalid : u ∈ (inspect t).invalid ↔
    (∃ v ∈ t.visitsOf .separator, ⟨v.tree.token, v.parent⟩ = u) ∧ ¬ u.isValid := by
  simp [inspect, Verdicts.ofTest]

/-- The separator is recorded as valid and not as invalid. -/
def Accepts (v : Verdicts SeparatorUse) (sep : Token) : Prop :=
  (∃ u ∈ v.valid, u.separator = sep) ∧ ∀ u ∈ v.invalid, u.separator ≠ sep

/-- The separator is recorded as invalid and not as valid. -/
def Refuses (v : Verdicts SeparatorUse) (sep : Token) : Prop :=
  (∃ u ∈ v.invalid, u.separator = sep) ∧ ∀ u ∈ v.valid, u.separator ≠ sep

instance (v : Verdicts SeparatorUse) (sep : Token) : Decidable (Accepts v sep) :=
  inferInstanceAs (Decidable (_ ∧ _))

instance (v : Verdicts SeparatorUse) (sep : Token) : Decidable (Refuses v sep) :=
  inferInstanceAs (Decidable (_ ∧ _))

theorem Refuses.not_passes {v : Verdicts SeparatorUse} (h : Refuses v sep) : ¬ v.passes := by
  intro hpasses
  obtain ⟨⟨u, hu, -⟩, -⟩ := h
  rw [Verdicts.passes, List.isEmpty_iff] at hpasses
  rw [hpasses] at hu
  cases hu

/-- The check judges the separators of a tree as they hang. -/
theorem judged_of_hung (h : t.Hung V) (hroot : t.kind = .separator → ¬ V t.token)
    (hsep : sep ∈ t.inorder) (hs : sep.kind = .separator) :
    (V sep → Accepts (inspect t) sep) ∧ (¬ V sep → Refuses (inspect t) sep) := by
  have hvalid : ∀ v ∈ t.visitsOf .separator,
      (V v.tree.token ↔ (SeparatorUse.mk v.tree.token v.parent).isValid) := by
    intro v hv
    obtain ⟨hv, hk⟩ := Tree.mem_visitsOf.mp hv
    exact h.iff_parent (fun hk => iff_of_false (hroot hk) (by simp)) v hv hk
  obtain ⟨v, hv, rfl⟩ := (Tree.mem_inorder none).mp hsep
  have hvisit := Tree.mem_visitsOf.mpr ⟨hv, hs⟩
  constructor
  · intro hV
    refine ⟨⟨_, mem_valid.mpr ⟨⟨v, hvisit, rfl⟩, (hvalid v hvisit).mp hV⟩, rfl⟩, ?_⟩
    intro u hu htoken
    obtain ⟨⟨v', hv', rfl⟩, hnot⟩ := mem_invalid.mp hu
    have htoken : v'.tree.token = v.tree.token := htoken
    exact hnot ((hvalid v' hv').mp (htoken ▸ hV))
  · intro hV
    refine ⟨⟨_, mem_invalid.mpr ⟨⟨v, hvisit, rfl⟩, mt (hvalid v hvisit).mpr hV⟩, rfl⟩, ?_⟩
    intro u hu htoken
    obtain ⟨⟨v', hv', rfl⟩, hisValid⟩ := mem_valid.mp hu
    have htoken : v'.tree.token = v.tree.token := htoken
    exact hV (htoken ▸ (hvalid v' hv').mpr hisValid)

end SeparatorUse

/-- If no priority is the lowest of all, the operators of a text bind tighter than separators. -/
theorem Dialect.binds_of_mem_tokens (hlow : ∀ q ∈ d.priorities, lowestPriority < q) {t : Token}
    (ht : t ∈ d.tokens source) (hk : t.kind = .operator ∨ t.kind = .unary) : d.Binds t :=
  (declares_of_mem_tokens ht).binds hlow hk

/-! ## The verdict -/

namespace SeparatorUse

/-- The check accepts the separators that are attached and refuses the others. -/
theorem judged_of_parse (hd : d.Distinct)
    (hlow : ∀ q ∈ d.priorities, Dialect.lowestPriority < q) (h : d.parse source = .ok p)
    (hs : d.sparesEmptyGroups none p.tokens) (hsep : Separates (dropEmptyGroups p.tokens) sep es) :
    (Attached es → Accepts (inspect p.tree) sep) ∧
      (¬ Attached es → Refuses (inspect p.tree) sep) := by
  have htokens := (parse_eq_ok h).1
  obtain ⟨hne, hp, ht⟩ := parse_dropEmptyGroups h hs
  have hsub := dropEmptyGroups_sublist p.tokens
  have hnodup : (dropEmptyGroups p.tokens).Nodup :=
    hsub.nodup (htokens ▸ Dialect.nodup_tokens hd source)
  have hjudges : Polish.Judges
      (fun sep => ∃ es, Separates (dropEmptyGroups p.tokens) sep es ∧ Attached es) d []
      (dropEmptyGroups p.tokens) := by
    refine ⟨fun t ht => Dialect.binds_of_mem_tokens hlow (htokens ▸ hsub.subset ht), ?_⟩
    intro front t back hts hk
    have hhere : Separates (dropEmptyGroups p.tokens) t
        (enclosures (front.reverse ++ []) (t :: back)) :=
      ⟨front, back, hts, hk, by rw [List.append_nil]⟩
    exact ⟨fun ⟨es, hes, hattached⟩ => hhere.unique hnodup hes ▸ hattached,
      fun hattached => ⟨_, hhere, hattached⟩⟩
  obtain ⟨hhung, hroot⟩ := Polish.hung_of_noEmptyGroup hne hjudges hp ht
  obtain ⟨before, behind, hsplit, hk, -⟩ := id hsep
  have hmem : sep ∈ p.tree.inorder := by
    rw [← Tree.mem_written hk, Polish.written_of_noEmptyGroup hne hp ht, hsplit]
    simp [shown, Token.shows, hk]
  obtain ⟨haccepts, hrefuses⟩ := judged_of_hung hhung hroot hmem hk
  refine ⟨fun hattached => haccepts ⟨es, hsep, hattached⟩, fun hnot => hrefuses ?_⟩
  rintro ⟨es', hes', hattached⟩
  exact hnot (hsep.unique hnodup hes' ▸ hattached)

/-- Whatever the check refuses is a separator of the text. -/
theorem exists_separates_of_mem_invalid (h : d.parse source = .ok p)
    (hs : d.sparesEmptyGroups none p.tokens) {u : SeparatorUse}
    (hu : u ∈ (inspect p.tree).invalid) :
    ∃ es, Separates (dropEmptyGroups p.tokens) u.separator es := by
  obtain ⟨hne, hp, ht⟩ := parse_dropEmptyGroups h hs
  obtain ⟨⟨v, hv, rfl⟩, -⟩ := mem_invalid.mp hu
  obtain ⟨hv, hk⟩ := Tree.mem_visitsOf.mp hv
  have hmem := (Tree.mem_inorder none).mpr ⟨v, hv, rfl⟩
  rw [← Tree.mem_written hk, Polish.written_of_noEmptyGroup hne hp ht] at hmem
  exact exists_separates (List.mem_of_mem_filter hmem) hk

/-- In the list of arguments of a call, a separator is attached to the call. -/
theorem attached_of_call {before behind : List Token} {opener : Token} {opened : List Token}
    (hts : p.tokens = before ++ sep :: behind) (hk : sep.kind = .separator)
    (ho : openFrom [] before = some (opener :: opened)) (hc : opener.kind = .call) :
    ∃ es, Separates (dropEmptyGroups p.tokens) sep es ∧ standing es = .trailing := by
  have hdrop := dropEmptyGroups_append_cons (t := sep) (by simp [hk]) (by simp [hk]) before behind
  refine ⟨_, ⟨dropEmptyGroups before, dropEmptyGroups behind, by rw [hts, hdrop], hk, rfl⟩, ?_⟩
  have hopen : openFrom [] (dropEmptyGroups before).reverse.reverse = some (opener :: opened) := by
    rw [List.reverse_reverse, openFrom_dropEmptyGroups, ho]
  have hopeners := map_opener_enclosures hopen (sep :: dropEmptyGroups behind)
  generalize enclosures (dropEmptyGroups before).reverse (sep :: dropEmptyGroups behind) = es
    at hopeners
  cases es with
  | nil => simp at hopeners
  | cons e outer =>
    have hopener : e.opener = some opener := (List.cons.inj hopeners).1
    rw [standing, hopener]
    exact if_pos hc

/-- If every separator is attached, so is the first one of each enclosure, and to what encloses
it. -/
theorem standing_ne_apart (h : ∀ sep es, Separates ts sep es → Attached es)
    (hsep : Separates ts sep es) : standing es ≠ .apart := by
  by_cases hdivided : es.head?.any (·.divided)
  · cases es with
    | nil => cases hdivided
    | cons e outer =>
      obtain ⟨first, hfirst⟩ := hsep.exists_first hdivided
      exact (h _ _ hfirst).resolve_left (by simp)
  · exact (h _ _ hsep).resolve_left hdivided

/-- **The check of separators**, said of the text.  Let every declared priority be above the lowest
and no empty group take the place of an operand.  A separator is accepted if it is attached and else
refused, and the check passes if all of them are attached.  So a separator is accepted in the list
of arguments of a call, behind another separator of the same enclosure, and in parentheses that are
such a list or the last item of a list; the first separator of the whole text, and of parentheses
that are the whole text or an operand, is refused.  If no list in parentheses stands directly before
a separator, the check passes exactly if every separator is in the list of arguments of a call or in
parentheses that are such a list or the last item of one. -/
theorem judged_by_enclosures (hd : d.Distinct)
    (hlow : ∀ q ∈ d.priorities, Dialect.lowestPriority < q) (h : d.parse source = .ok p)
    (hs : d.sparesEmptyGroups none p.tokens) :
    (∀ sep es, Separates (dropEmptyGroups p.tokens) sep es →
      (Attached es → Accepts (inspect p.tree) sep) ∧
        (¬ Attached es → Refuses (inspect p.tree) sep)) ∧
    ((inspect p.tree).passes ↔
      ∀ sep es, Separates (dropEmptyGroups p.tokens) sep es → Attached es) ∧
    (∀ before sep behind opener opened, p.tokens = before ++ sep :: behind →
      sep.kind = .separator → openFrom [] before = some (opener :: opened) →
      opener.kind = .call → Accepts (inspect p.tree) sep) ∧
    (∀ sep es, Separates (dropEmptyGroups p.tokens) sep es →
      es.head?.any (·.divided) ∨ standing es = .trailing → Accepts (inspect p.tree) sep) ∧
    (∀ sep es, Separates (dropEmptyGroups p.tokens) sep es →
      ¬ es.head?.any (·.divided) → standing es = .apart → Refuses (inspect p.tree) sep) ∧
    ((∀ sep es, Separates (dropEmptyGroups p.tokens) sep es → standing es ≠ .leading) →
      ((inspect p.tree).passes ↔
        ∀ sep es, Separates (dropEmptyGroups p.tokens) sep es → standing es = .trailing)) := by
  have hjudged : ∀ sep es, Separates (dropEmptyGroups p.tokens) sep es →
      (Attached es → Accepts (inspect p.tree) sep) ∧
        (¬ Attached es → Refuses (inspect p.tree) sep) :=
    fun sep es hsep => judged_of_parse hd hlow h hs hsep
  have hpasses : (inspect p.tree).passes ↔
      ∀ sep es, Separates (dropEmptyGroups p.tokens) sep es → Attached es := by
    constructor
    · intro hpasses sep es hsep
      by_contra hnot
      exact ((hjudged sep es hsep).2 hnot).not_passes hpasses
    · intro hall
      rw [Verdicts.passes, List.isEmpty_iff, List.eq_nil_iff_forall_not_mem]
      intro u hu
      obtain ⟨es, hsep⟩ := exists_separates_of_mem_invalid h hs hu
      exact ((hjudged _ es hsep).1 (hall _ es hsep)).2 u hu rfl
  have htrailing : ∀ {es}, standing es = .trailing → Attached es := by
    intro es hes
    exact .inr (by rw [hes]; decide)
  refine ⟨hjudged, hpasses, ?_, ?_, ?_, fun hleading => hpasses.trans ⟨?_, ?_⟩⟩
  · intro before sep behind opener opened hts hk ho hc
    obtain ⟨es, hsep, hes⟩ := attached_of_call hts hk ho hc
    exact (hjudged sep es hsep).1 (htrailing hes)
  · intro sep es hsep hes
    exact (hjudged sep es hsep).1 (hes.elim .inl htrailing)
  · intro sep es hsep hdivided hes
    exact (hjudged sep es hsep).2 fun hattached => hattached.elim hdivided fun hne => hne hes
  · intro hattached sep es hsep
    have hne := standing_ne_apart hattached hsep
    have hne' := hleading sep es hsep
    cases hes : standing es with
    | apart => exact absurd hes hne
    | leading => exact absurd hes hne'
    | trailing => rfl
  · exact fun hall sep es hsep => htrailing (hall sep es hsep)

/-- In `f(1,(2,3))*(4,5)` the list behind the call is an operand, the one in it is a last item. -/
theorem judged_in_product : ∃ p, Dialect.standard.parse "f(1,(2,3))*(4,5)" = .ok p ∧
    Accepts (inspect p.tree) ⟨.separator, ",", some 3⟩ ∧
    Accepts (inspect p.tree) ⟨.separator, ",", some 6⟩ ∧
    Refuses (inspect p.tree) ⟨.separator, ",", some 13⟩ := by
  have hlow : ∀ q ∈ Dialect.standard.priorities, Dialect.lowestPriority < q := by decide
  have hp : ∃ p, Dialect.standard.parse "f(1,(2,3))*(4,5)" = .ok p ∧
      Dialect.standard.sparesEmptyGroups none p.tokens ∧
      ∃ ts, dropEmptyGroups p.tokens = ts ∧
        ts[2]? = some ⟨.separator, ",", some 3⟩ ∧ ts[5]? = some ⟨.separator, ",", some 6⟩ ∧
        ts[12]? = some ⟨.separator, ",", some 13⟩ ∧
        standing (enclosures (ts.take 2).reverse (ts.drop 2)) = .trailing ∧
        standing (enclosures (ts.take 5).reverse (ts.drop 5)) = .trailing ∧
        standing (enclosures (ts.take 12).reverse (ts.drop 12)) = .apart ∧
        (enclosures (ts.take 12).reverse (ts.drop 12)).head?.any (·.divided) = false :=
    ⟨_, by cbv, by decide, _, by cbv, rfl, rfl, rfl, by decide, by decide, by decide, by decide⟩
  obtain ⟨p, hp, hs, _, rfl, hfirst, hsecond, hthird, hcall, hitem, hoperand, hdivided⟩ := hp
  obtain ⟨-, -, -, haccepts, hrefuses, -⟩ :=
    judged_by_enclosures (Dialect.distinct_of_build build_standard) hlow hp hs
  exact ⟨p, hp, haccepts _ _ (separates_at hfirst rfl) (.inr hcall),
    haccepts _ _ (separates_at hsecond rfl) (.inr hitem),
    hrefuses _ _ (separates_at hthird rfl) (by simp [hdivided]) hoperand⟩

/-- The innermost bracket that is open at a separator decides about it. -/
def JudgedByOpener (p : Parsed) : Prop :=
  ∀ (i : Nat) (sep : Token) (opened : List Token), p.tokens[i]? = some sep →
    sep.kind = .separator → openFrom [] (p.tokens.take i) = some opened →
    if opened.head?.any (·.kind == .call) then Accepts (inspect p.tree) sep
    else Refuses (inspect p.tree) sep

/-- The dialect whose only operator, a sum, is of the lowest priority. -/
def sumLast : Dialect :=
  { Dialect.standard with operators := [⟨"+", Int32.minValue, true⟩], unaries := [] }

/-- The innermost bracket alone does not decide.  The second separator of `1,2,3` hangs below the
first, and the lists in parentheses of `f((1,2))` and `f((1,2),3)` hang below the call or a
separator.  In `(5,6) g(())` the empty group leaves the list to the call, and in `f(1,2+3)` the
separator is left to an operator of the lowest priority. -/
theorem not_judgedByOpener :
    (∃ p, Dialect.standard.parse "1,2,3" = .ok p ∧ ¬ JudgedByOpener p) ∧
    (∃ p, Dialect.standard.parse "f((1,2))" = .ok p ∧ (inspect p.tree).passes ∧
      ¬ JudgedByOpener p) ∧
    (∃ p, Dialect.standard.parse "f((1,2),3)" = .ok p ∧ (inspect p.tree).passes ∧
      ¬ JudgedByOpener p) ∧
    (∃ p, Dialect.standard.parse "(5,6) g(())" = .ok p ∧ (inspect p.tree).passes ∧
      ¬ JudgedByOpener p) ∧
    Dialect.build { Dialect.Spec.bare with operators := [⟨"+", Int32.minValue, true⟩] } =
      .ok sumLast ∧
    ∃ p, sumLast.parse "f(1,2+3)" = .ok p ∧ ¬ JudgedByOpener p := by
  refine ⟨⟨_, by cbv, fun h => ?_⟩, ⟨_, by cbv, by decide, fun h => ?_⟩,
    ⟨_, by cbv, by decide, fun h => ?_⟩, ⟨_, by cbv, by decide, fun h => ?_⟩, rfl,
    ⟨_, by cbv, fun h => ?_⟩⟩
  · have hsecond := h 3 _ _ rfl rfl rfl
    revert hsecond
    decide
  · have hfirst := h 3 _ _ rfl rfl rfl
    revert hfirst
    decide
  · have hfirst := h 3 _ _ rfl rfl rfl
    revert hfirst
    decide
  · have hfirst := h 2 _ _ rfl rfl rfl
    revert hfirst
    decide
  · have hfirst := h 2 _ _ rfl rfl rfl
    revert hfirst
    decide

end SeparatorUse

end Reckon
