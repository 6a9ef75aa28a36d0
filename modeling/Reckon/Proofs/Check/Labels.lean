import Reckon.Proofs.Check.Parens
import Reckon.Proofs.Polish.Tokens
import Reckon.Proofs.Scan.Spans

/-!
# Labels of reports

Every label of a report points at tokens of the text, at a stretch around such tokens, or at a
parenthesis, so it fits the text if all tokens do (`Checker.fits_of_mem_check`).
-/

namespace Reckon

open Text

variable {text : List Char} {g : Diagnostic}

/-! ## Diagnostics -/

namespace Diagnostic

/-- Every label is on a span that fits the text. -/
def Fits (text : List Char) (g : Diagnostic) : Prop := ∀ label ∈ g.labels, label.span.Fits text

theorem fits_plain (text : List Char) (message : String) : (plain message).Fits text := nofun

theorem fits_coded (text : List Char) (code : Code) (message : String) :
    (coded code message).Fits text := nofun

theorem Fits.pointing {span : Option Span} (h : g.Fits text) (hs : ∀ s ∈ span, s.Fits text)
    (message : String) : (g.pointing span message).Fits text := by
  cases span with
  | none => exact h
  | some s =>
    intro label hlabel
    rcases List.mem_append.mp hlabel with hlabel | hlabel
    · exact h label hlabel
    · rw [List.mem_singleton.mp hlabel]
      exact hs s rfl

theorem Fits.advising (h : g.Fits text) (help : String) : (g.advising help).Fits text := h

end Diagnostic

/-! ## Trees and faults -/

/-- The span of a tree goes around spans of its tokens. -/
theorem Tree.All.fits_span {t : Tree} (h : t.All (Token.Fits text)) :
    ∀ s ∈ t.span, s.Fits text := by
  have hjoin : ∀ a b : Option Span, (∀ s ∈ a, s.Fits text) → (∀ s ∈ b, s.Fits text) →
      ∀ s ∈ joinSpans a b, s.Fits text := by
    intro a b ha hb
    cases a with
    | none => exact hb
    | some s =>
      cases b with
      | none => exact ha
      | some t =>
        intro u hu
        rw [← Option.mem_some_iff.mp hu]
        exact (ha s rfl).union (hb t rfl)
  induction t with
  | leaf t => exact h
  | node t l r ihl ihr =>
    rw [span]
    exact hjoin _ _ (hjoin _ _ (ihl h.2.1) (ihr h.2.2)) h.1

namespace Fault

theorem All.fits_places {f : Fault} (h : f.All (Token.Fits text)) :
    ∀ place ∈ f.places, ∀ s ∈ place.1, s.Fits text := by
  cases f with
  | unmatchedClose close opening =>
    intro place hplace
    rw [List.mem_singleton.mp hplace]
    exact h
  | unclosedGroup opener closing =>
    intro place hplace
    rw [List.mem_singleton.mp hplace]
    exact h
  | unclosedCall call closing =>
    intro place hplace
    rw [List.mem_singleton.mp hplace]
    exact h
  | residual operands =>
    intro place hplace
    obtain ⟨t, ht, rfl⟩ := List.mem_map.mp hplace
    exact Tree.All.fits_span (h t ht)
  | empty => simp [places]

theorem All.fits_diagnostic {f : Fault} (h : f.All (Token.Fits text)) :
    f.diagnostic.Fits text := by
  have hfold : ∀ (places : List (Option Span × String)) (g : Diagnostic), g.Fits text →
      (∀ place ∈ places, ∀ s ∈ place.1, s.Fits text) →
      (places.foldl (fun g place => g.pointing place.1 place.2) g).Fits text := by
    intro places
    induction places with
    | nil => exact fun g hg _ => hg
    | cons place places ih =>
      intro g hg hplaces
      obtain ⟨hplace, hplaces⟩ := List.forall_mem_cons.mp hplaces
      exact ih _ (hg.pointing hplace place.2) hplaces
  exact hfold _ _ ((Diagnostic.fits_coded text f.code f.message).advising f.help) h.fits_places

end Fault

/-! ## Parentheses -/

namespace Paren

variable {d : Dialect} {source : String} {p q : Paren} {ps : List Paren}

theorem Pairing.mem_add {s : Pairing} (h : q ∈ (s.add p).stray ++ (s.add p).free) :
    q = p ∨ q ∈ s.stray ++ s.free := by
  rw [Pairing.add] at h
  cases hside : p.side with
  | opening =>
    simp only [hside, List.mem_append, List.mem_cons] at h ⊢
    tauto
  | closing =>
    cases hfree : s.free with
    | nil =>
      simp only [hside, hfree, List.mem_append, List.mem_cons] at h ⊢
      tauto
    | cons opener free =>
      simp only [hside, hfree, List.mem_append, List.mem_cons] at h ⊢
      tauto

theorem Pairing.mem_addAll {s : Pairing}
    (h : q ∈ (ps.foldl Pairing.add s).stray ++ (ps.foldl Pairing.add s).free) :
    q ∈ ps ∨ q ∈ s.stray ++ s.free := by
  induction ps generalizing s with
  | nil => exact .inr h
  | cons p ps ih =>
    rcases ih h with h | h
    · exact .inl (List.mem_cons_of_mem p h)
    · rcases Pairing.mem_add h with rfl | h
      · exact .inl List.mem_cons_self
      · exact .inr h

/-- What is found wrong are parentheses of the text. -/
theorem mem_inText_of_mem_invalid (h : p ∈ (inspect d source).invalid) :
    p ∈ inText d source.toList := by
  rw [invalid_inspect, ← List.reverse_append, List.mem_reverse, List.mem_append, or_comm,
    ← List.mem_append] at h
  exact (Pairing.mem_addAll h).resolve_right (by simp)

/-- A parenthesis of the text is told of where it stands. -/
theorem fits_diagnostic (h : p ∈ inText d text) :
    p.diagnostic.Fits text := by
  have hspan : p.span.Fits text := by
    obtain ⟨⟨o, c⟩, ho, hp⟩ := List.mem_filterMap.mp h
    have hc : (Span.ofLength o c.utf8Size).Fits text :=
      Span.fits_of_standsAt (mem_positioned_iff.mp ho)
    dsimp only at hp
    split at hp
    · rw [← Option.some.inj hp]
      exact hc
    · split at hp
      · rw [← Option.some.inj hp]
        exact hc
      · cases hp
  have hlabel : ∀ s ∈ some p.span, s.Fits text := by simpa using hspan
  exact ((Diagnostic.fits_coded text _ _).pointing hlabel _).advising _

end Paren

/-! ## Checks of the tree -/

section

variable {d : Dialect} {t : Tree}

/-- The node of a visit has a token that fits. -/
theorem Tree.All.fits_token (h : t.All (Token.Fits text)) {v : Tree.Visit} (hv : v ∈ t.visits) :
    ∀ s ∈ v.tree.token.span, s.Fits text :=
  (h.of_mem_visits hv).token

theorem OperandUse.operator_of_ofNode? {u : OperandUse} (h : ofNode? d t = some u) :
    u.operator = t.token := by
  unfold ofNode? at h
  split at h
  · rw [← Option.some.inj h]
  · rw [← Option.some.inj h]
  · cases h

theorem OperandUse.fits_of_mem_invalid {u : OperandUse} (h : t.All (Token.Fits text))
    (hu : u ∈ (inspect d t).invalid) : u.diagnostic.Fits text := by
  obtain ⟨v, hv, hnode⟩ := List.mem_filterMap.mp (List.mem_filter.mp hu).1
  have hspan := h.fits_token hv
  rw [← operator_of_ofNode? hnode] at hspan
  exact (Diagnostic.fits_coded text _ _).pointing hspan _

theorem EmptyArguments.fits_of_mem_invalid {e : EmptyArguments} (h : t.All (Token.Fits text))
    (he : e ∈ (inspect t).invalid) : e.diagnostic.Fits text := by
  obtain ⟨v, hv, rfl⟩ := List.mem_map.mp (List.mem_filter.mp he).1
  have hspan := h.fits_token (Tree.mem_visitsOf.mp hv).1
  exact ((Diagnostic.fits_coded text _ _).pointing hspan _).advising _

theorem ArgumentCount.fits_of_mem_invalid {contracts : Contracts} {c : ArgumentCount}
    (h : t.All (Token.Fits text)) (hc : c ∈ (inspect contracts t).invalid) :
    c.diagnostic.Fits text := by
  obtain ⟨v, hv, rfl⟩ := List.mem_map.mp (List.mem_filter.mp hc).1
  have hspan := h.fits_token (Tree.mem_visitsOf.mp hv).1
  unfold diagnostic
  split
  · exact ((Diagnostic.fits_coded text _ _).pointing hspan _).advising _
  · exact (Diagnostic.fits_coded text _ _).pointing hspan _

theorem SeparatorUse.fits_of_mem_invalid {u : SeparatorUse} (h : t.All (Token.Fits text))
    (hu : u ∈ (inspect t).invalid) : u.diagnostic.Fits text := by
  obtain ⟨v, hv, rfl⟩ := List.mem_map.mp (List.mem_filter.mp hu).1
  have hspan := h.fits_token (Tree.mem_visitsOf.mp hv).1
  exact (Diagnostic.fits_coded text _ _).pointing hspan _

theorem NameUse.fits_of_mem_invalid {sort : NameSort} {policy : NamePolicy} {u : NameUse}
    (h : t.All (Token.Fits text)) (hu : u ∈ (inspect sort policy t).invalid) :
    u.diagnostic.Fits text := by
  obtain ⟨v, hv, rfl⟩ := List.mem_map.mp (List.mem_filter.mp hu).1
  have hspan := h.fits_token (Tree.mem_visitsOf.mp hv).1
  exact (Diagnostic.fits_coded text _ _).pointing hspan _

end

/-! ## Reports -/

namespace Report

theorem fits_faultDiagnostics {r : Report} (h : ∀ f ∈ r.fault, f.diagnostic.Fits text) :
    ∀ g ∈ r.faultDiagnostics, g.Fits text := by
  intro g hg
  obtain ⟨f, hf, rfl⟩ := mem_faultDiagnostics hg
  exact h f hf

end Report

namespace Checker

variable {c : Checker} {d : Dialect} {source : String}

/-- A check that is run tells all that it finds wrong with labels that fit. -/
theorem fits_of_ifSelected {α : Type} {check : Check} {v : Unit → Verdicts α}
    {tell : α → Diagnostic} (h : ∀ a ∈ (v ()).invalid, (tell a).Fits text) :
    ∀ g ∈ Report.diagnose tell (c.ifSelected check v), g.Fits text := by
  intro g hg
  obtain ⟨w, a, hw, ha, rfl⟩ := Report.exists_of_mem_diagnose hg
  obtain ⟨-, rfl⟩ := ifSelected_eq_some_iff.mp hw
  exact h a ha

theorem fits_of_mem_checkTree {t : Tree} (h : t.All (Token.Fits source.toList)) :
    ∀ g ∈ (c.checkTree d source t).diagnostics, g.Fits source.toList := by
  have hfault : ∀ f ∈ (c.checkTree d source t).fault, f.diagnostic.Fits source.toList := nofun
  intro g hg
  simp only [Report.diagnostics, checkTree, checkText, List.mem_append] at hg
  rcases hg with ((((((hg | hg) | hg) | hg) | hg) | hg) | hg) | hg
  · exact Report.fits_faultDiagnostics hfault g hg
  · exact fits_of_ifSelected
      (fun p hp => Paren.fits_diagnostic (Paren.mem_inText_of_mem_invalid hp)) g hg
  · exact fits_of_ifSelected (fun u hu => OperandUse.fits_of_mem_invalid h hu) g hg
  · exact fits_of_ifSelected (fun e he => EmptyArguments.fits_of_mem_invalid h he) g hg
  · exact fits_of_ifSelected (fun n hn => ArgumentCount.fits_of_mem_invalid h hn) g hg
  · exact fits_of_ifSelected (fun u hu => SeparatorUse.fits_of_mem_invalid h hu) g hg
  · exact fits_of_ifSelected (fun u hu => NameUse.fits_of_mem_invalid h hu) g hg
  · exact fits_of_ifSelected (fun u hu => NameUse.fits_of_mem_invalid h hu) g hg

/-- If the tokens of a text fit it, so do all labels that are told when it is checked, and those of
its fault also where the report leaves it to the check of parentheses. -/
theorem fits_of_mem_check (h : ∀ t ∈ d.tokens source, t.Fits source.toList) :
    (∀ g ∈ (c.check d source).diagnostics, g.Fits source.toList) ∧
      ∀ f ∈ (c.check d source).fault, f.diagnostic.Fits source.toList := by
  obtain ⟨htree, hfault⟩ := parse_all (Token.fits_placeholder source.toList) h
  cases hp : d.parse source with
  | ok p =>
    rw [check, hp]
    refine ⟨fits_of_mem_checkTree (htree p hp), ?_⟩
    rintro f ⟨⟩
  | error f =>
    have hf : ∀ f' ∈ some f, f'.diagnostic.Fits source.toList := by
      simpa using (hfault f hp).fits_diagnostic
    rw [check, hp]
    refine ⟨fun g hg => ?_, hf⟩
    simp only [Report.diagnostics, checkText, List.mem_append] at hg
    rcases hg with ((((((hg | hg) | hg) | hg) | hg) | hg) | hg) | hg
    · exact Report.fits_faultDiagnostics hf g hg
    · exact fits_of_ifSelected
        (fun p hp => Paren.fits_diagnostic (Paren.mem_inText_of_mem_invalid hp)) g hg
    all_goals cases hg

end Checker

end Reckon
