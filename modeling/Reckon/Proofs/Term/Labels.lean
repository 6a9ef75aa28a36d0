import Reckon.CommandLine.Notice
import Reckon.Proofs.Check.Labels
import Reckon.Proofs.Check.Report
import Reckon.Proofs.Term.Faults
import Reckon.Proofs.Term.Kinds

/-!
# Labels of typing and evaluation

A term holds tokens of its tree only, so the faults of typing and evaluation are told at tokens and
subtrees of the text.  Together with the labels of reports: every label of every diagnostic points
into the expression (`Compiler.labels_covered`).
-/

namespace Reckon

variable {D : Domain} {d : Dialect} {text : List Char} {P : Token → Prop}

/-! ## Terms -/

/-- Every token of the term has the property. -/
inductive Term.All (P : Token → Prop) : Term → Prop where
  | literal {t : Token} (h : P t) : All P (.literal t)
  | name {t : Token} (h : P t) : All P (.name t)
  | absent {owner : Option Token} (h : ∀ t ∈ owner, P t) : All P (.absent owner)
  | stray {t : Token} (h : P t) : All P (.stray t)
  | alien {t : Token} (h : P t) : All P (.alien t)
  | call {sort : CallSort} {tree : Tree} {operands : List Term} (htree : tree.All P)
      (hoperands : ∀ u ∈ operands, All P u) : All P (.call sort tree operands)

/-- Reading a tree brings in no token but the one above it. -/
theorem Term.all_reading {t : Tree} (h : t.All P) {parent : Option Token}
    (hparent : ∀ p ∈ parent, P p) :
    (reading d parent t).whole.All P ∧ ∀ u ∈ (reading d parent t).links, u.All P := by
  have hwhole : ∀ {term : Term}, term.All P →
      (Reading.ofWhole term).whole.All P ∧ ∀ u ∈ (Reading.ofWhole term).links, u.All P := by
    intro term hterm
    refine ⟨hterm, fun u hu => ?_⟩
    rw [List.mem_singleton.mp hu]
    exact hterm
  induction t generalizing parent with
  | leaf t =>
    have ht : P t := h
    rw [reading]
    apply hwhole
    unfold ofLeaf
    cases t.kind with
    | literal => exact .literal ht
    | identifier => exact .name ht
    | missing => exact .absent hparent
    | separator => exact .stray ht
    | opening | closing => exact .alien ht
    | operator | unary | call => exact .call ht (by simp)
  | node t l r ihl ihr =>
    have ht : P t := h.1
    have hself : ∀ p ∈ some t, P p := by simpa using ht
    obtain ⟨hl, -⟩ := ihl h.2.1 hself
    obtain ⟨hr, hlinks⟩ := ihr h.2.2 hself
    rw [reading]
    cases t.kind with
    | literal => exact hwhole (.literal ht)
    | identifier => exact hwhole (.name ht)
    | missing => exact hwhole (.absent hparent)
    | opening | closing => exact hwhole (.alien ht)
    | separator => exact ⟨.stray ht, List.forall_mem_cons.mpr ⟨hl, hlinks⟩⟩
    | operator => exact hwhole (.call h (by simp [hl, hr]))
    | unary =>
      refine hwhole (.call h ?_)
      cases d.sideOf t.text <;> simp [hl, hr]
    | call =>
      refine hwhole (.call h ?_)
      split
      · simp
      · exact hlinks

theorem Term.all_ofTree {t : Tree} (h : t.All P) : (ofTree d t).All P :=
  (all_reading h (by simp)).1

/-! ## Typing -/

theorem Refusal.fits_diagnostic (r : Refusal) {site : Option Span}
    (h : ∀ s ∈ site, s.Fits text) : (r.diagnostic site).Fits text := by
  have hlabel := (Diagnostic.fits_coded text r.code r.message).pointing h "called here"
  unfold diagnostic
  dsimp only
  split
  · exact hlabel.advising _
  · exact hlabel

namespace TypeFault

/-- Where the fault is told. -/
def site : TypeFault → Option Span
  | invalidLiteral t | unbound t | orphanSeparator t | alien t => t.span
  | undeclared _ t => t.span
  | missingOperand owner => owner.bind Token.span
  | refused _ site => site

theorem fits_diagnostic {f : TypeFault} (h : ∀ s ∈ f.site, s.Fits text) :
    f.diagnostic.Fits text := by
  cases f with
  | invalidLiteral t => exact (Diagnostic.fits_coded text _ _).pointing h _
  | unbound t => exact ((Diagnostic.fits_coded text _ _).pointing h _).advising _
  | missingOperand owner => exact (Diagnostic.fits_coded text _ _).pointing h _
  | orphanSeparator t => exact (Diagnostic.fits_coded text _ _).pointing h _
  | alien t => exact (Diagnostic.fits_plain text _).pointing h _
  | undeclared sort t => exact (Diagnostic.fits_coded text _ _).pointing h _
  | refused refusal site => exact refusal.fits_diagnostic h

end TypeFault

namespace Typing

variable {s : Typing D}

theorem fits_site_of_mem_ownFaults {sort : CallSort} {tree : Tree} {operands : List Term}
    (h : tree.token.Fits text) {f : TypeFault} (hf : f ∈ s.ownFaults sort tree operands) :
    ∀ s ∈ f.site, s.Fits text := by
  unfold ownFaults at hf
  split at hf
  · rw [List.mem_singleton.mp hf]
    exact h
  · split at hf
    · rcases mem_faults_bindCall hf with rfl | ⟨refusal, rfl⟩ <;> exact h
    · cases hf

/-- Typing tells its faults at tokens of the term. -/
theorem fits_site_of_mem_faults {term : Term} (h : term.All (Token.Fits text)) :
    ∀ f ∈ faults (s.bind term), ∀ s ∈ f.site, s.Fits text := by
  induction h with
  | @literal t ht =>
    rw [bind]
    cases D.readLiteral t.text with
    | some v => exact nofun
    | none => exact List.forall_mem_singleton.mpr ht
  | @name t ht =>
    rw [bind]
    cases s.kindOf t.text with
    | some kind => exact nofun
    | none => exact List.forall_mem_singleton.mpr ht
  | @absent owner howner =>
    rw [bind]
    refine List.forall_mem_singleton.mpr fun s hs => ?_
    obtain ⟨t, ht, hs⟩ := Option.bind_eq_some_iff.mp hs
    exact howner t ht s hs
  | stray ht =>
    rw [bind]
    exact List.forall_mem_singleton.mpr ht
  | alien ht =>
    rw [bind]
    exact List.forall_mem_singleton.mpr ht
  | call htree hoperands ih =>
    rw [faults_bind_call, faults_bindAll]
    intro f hf
    rcases List.mem_append.mp hf with hf | hf
    · obtain ⟨u, hu, hf⟩ := List.mem_flatMap.mp hf
      exact ih u hu f hf
    · exact fits_site_of_mem_ownFaults htree.token hf

end Typing

/-! ## Evaluation -/

/-- The call that fails first is one that is read of the tree. -/
theorem Tree.mem_read_of_firstFailure? {s : Typing D} {env : Environment D} {t c : Tree}
    {reason : String} (h : t.firstFailure? s d env = some (c, reason)) : c ∈ t.read d := by
  obtain ⟨u, hu, hfailure⟩ := List.exists_of_findSome?_eq_some h
  have hself : c = u := by
    obtain ⟨overload, -, hfailure⟩ := Option.bind_eq_some_iff.mp hfailure
    obtain ⟨values, -, hfailure⟩ := Option.bind_eq_some_iff.mp hfailure
    split at hfailure
    · exact (Prod.mk.inj (Option.some.inj hfailure)).1.symm
    · cases hfailure
  exact hself ▸ hu

/-- Evaluation tells a failure at the stretch of the call that failed. -/
theorem Term.fits_of_compute {s : Typing D} {env : Environment D} {t : Tree} {b : Typed D}
    {fault : EvalFault} (ht : t.All (Token.Fits text)) (hs : s.kindOf = env.kindOf?)
    (hb : s.bind (Term.ofTree d t) = .ok b)
    (h : (Term.ofTree d t).compute env b.bound.callTable = .error fault) :
    fault.diagnostic.Fits text := by
  rw [Term.compute_eq_eval env hb] at h
  cases agrees_of_bind hs hb with
  | value v heval hmeaning hfailure =>
    rw [heval] at h
    cases h
  | fault c reason heval hmeaning hfailure =>
    rw [heval] at h
    rw [← Except.error.inj h]
    have hvisit := (Tree.read_sublist_visits d t none).1.subset
      (Tree.mem_read_of_firstFailure? hfailure)
    obtain ⟨v, hv, rfl⟩ := List.mem_map.mp hvisit
    exact (Diagnostic.fits_coded text _ _).pointing (ht.of_mem_visits hv).fits_span _

/-! ## Labels in the text -/

/-- Every label lies inside the text and cuts no character. -/
def Diagnostic.PointsInto (source : String) (g : Diagnostic) : Prop :=
  ∀ label ∈ g.labels, (label.span.covered source).isSome

theorem Diagnostic.Fits.pointsInto {source : String} {g : Diagnostic} (h : g.Fits source.toList) :
    g.PointsInto source := fun label hlabel => (h label hlabel).covered

/-- Every label of the failure lies inside the text, and no notice of it leaves a label out. -/
structure Failure.Covered (source : String) (failure : Failure) : Prop where
  points : ∀ g ∈ failure.diagnostics, g.PointsInto source
  remarks : (CommandLine.noticesOf failure).map (·.remarks) =
    failure.diagnostics.map fun g => g.labels.map CommandLine.Remark.ofLabel

namespace Failure

variable {source : String} {ds : List Diagnostic}

theorem map_remarks_ofDiagnostic (h : ∀ g ∈ ds, g.PointsInto source) :
    (ds.map (CommandLine.Notice.ofDiagnostic source)).map (·.remarks) =
      ds.map fun g => g.labels.map CommandLine.Remark.ofLabel := by
  rw [List.map_map]
  refine List.map_congr_left fun g hg => ?_
  exact congrArg (List.map CommandLine.Remark.ofLabel) (List.filter_eq_self.mpr (h g hg))

theorem covered_parse (h : ∀ g ∈ ds, g.Fits source.toList) : (parse ds source).Covered source :=
  ⟨fun g hg => (h g hg).pointsInto, map_remarks_ofDiagnostic fun g hg => (h g hg).pointsInto⟩

theorem covered_evaluation (h : ∀ g ∈ ds, g.Fits source.toList) :
    (evaluation ds source).Covered source :=
  ⟨fun g hg => (h g hg).pointsInto, map_remarks_ofDiagnostic fun g hg => (h g hg).pointsInto⟩

end Failure

namespace Compiled

variable {c : Compiler D} {source : String} {failure : Failure}

theorem covered_of_check (h : ∀ t ∈ c.dialect.tokens source, t.Fits source.toList)
    (hf : (c.compile source).check = .error failure) : failure.Covered source := by
  rcases Compiler.check_compile c source with ⟨tree, -, -, hcheck⟩ | ⟨-, -, hcheck⟩
  · rw [hcheck] at hf
    cases hf
  · rw [hcheck, Compiler.report_compile] at hf
    rw [← Except.error.inj hf]
    exact Failure.covered_parse (Checker.fits_of_mem_check h).1

theorem all_of_check (h : ∀ t ∈ c.dialect.tokens source, t.Fits source.toList) {tree : Tree}
    (hcheck : (c.compile source).check = .ok tree) : tree.All (Token.Fits source.toList) := by
  obtain ⟨-, p, hp, rfl, -⟩ := Compiler.parse_of_check hcheck
  exact (parse_all (Token.fits_placeholder source.toList) h).1 p hp

theorem fits_of_bind (h : ∀ t ∈ c.dialect.tokens source, t.Fits source.toList) {tree : Tree}
    (hcheck : (c.compile source).check = .ok tree) {kindOf : String → Option D.Kind}
    {faults : List TypeFault} (hb : (c.compile source).bind tree kindOf = .error faults) :
    ∀ g ∈ faults.map (·.diagnostic), g.Fits source.toList := by
  have hterm := Term.all_ofTree (d := c.dialect) (all_of_check h hcheck)
  rw [bind, Compiler.compiler_compile] at hb
  have hsites := Typing.fits_site_of_mem_faults (s := ⟨c.catalog, kindOf, c.lenient⟩) hterm
  rw [hb] at hsites
  intro g hg
  obtain ⟨f, hf, rfl⟩ := List.mem_map.mp hg
  exact TypeFault.fits_diagnostic (hsites f hf)

theorem covered_of_inferKind (h : ∀ t ∈ c.dialect.tokens source, t.Fits source.toList)
    {kindOf : String → Option D.Kind} (hf : (c.compile source).inferKind kindOf = .error failure) :
    failure.Covered source := by
  unfold inferKind at hf
  cases hcheck : (c.compile source).check with
  | error failure' =>
    simp only [hcheck] at hf
    exact Except.error.inj hf ▸ covered_of_check h hcheck
  | ok tree =>
    simp only [hcheck] at hf
    cases hb : (c.compile source).bind tree kindOf with
    | ok b =>
      simp only [hb] at hf
      cases hf
    | error faults =>
      simp only [hb, Compiler.source_compile] at hf
      rw [← Except.error.inj hf]
      exact Failure.covered_parse (fits_of_bind h hcheck hb)

theorem covered_of_evaluate (h : ∀ t ∈ c.dialect.tokens source, t.Fits source.toList)
    {env : Environment D} (hf : (c.compile source).evaluate env = .error failure) :
    failure.Covered source := by
  unfold evaluate at hf
  cases hcheck : (c.compile source).check with
  | error failure' =>
    simp only [hcheck] at hf
    exact Except.error.inj hf ▸ covered_of_check h hcheck
  | ok tree =>
    simp only [hcheck] at hf
    cases hb : (c.compile source).bind tree env.kindOf? with
    | error faults =>
      simp only [hb, Compiler.source_compile] at hf
      rw [← Except.error.inj hf]
      exact Failure.covered_evaluation (fits_of_bind h hcheck hb)
    | ok b =>
      simp only [hb, Compiler.source_compile, Compiler.compiler_compile] at hf
      have htree := all_of_check h hcheck
      rw [bind, Compiler.compiler_compile] at hb
      split at hf
      · rename_i fault hfault
        rw [← Except.error.inj hf]
        refine Failure.covered_evaluation (List.forall_mem_singleton.mpr ?_)
        exact Term.fits_of_compute htree rfl hb hfault
      · cases hf

end Compiled

/-- **Every label points into the expression.**  If every token of a text is written, then each
label of what is told in checking, typing or evaluating it lies inside the text and cuts no
character, and the notices of a failure keep all of them.  Only a call can have a token that is not
written: one whose name is a match of no characters. -/
theorem Compiler.labels_covered (hd : d.Distinct) (source : String) :
    (∀ t ∈ d.tokens source, t.text = "" → t.kind = .call ∧
      ∃ p q, Regex.Place.In source.toList p ∧ q ∈ d.identifier.ends p ∧ q.offset = p.offset) ∧
    ((∀ t ∈ d.tokens source, t.text ≠ "") →
      (∀ checker : Checker,
        (∀ g ∈ (checker.check d source).diagnostics, g.PointsInto source) ∧
        ∀ f ∈ (checker.check d source).fault, f.diagnostic.PointsInto source) ∧
      ∀ c : Compiler D, c.dialect = d → ∀ failure,
        (c.compile source).check = .error failure ∨
        (∃ kindOf, (c.compile source).inferKind kindOf = .error failure) ∨
        (∃ env, (c.compile source).evaluate env = .error failure) →
        failure.Covered source) := by
  refine ⟨fun t ht htext => Dialect.call_of_text_eq_empty hd ht htext, fun hwritten => ?_⟩
  have hfits : ∀ t ∈ d.tokens source, t.Fits source.toList :=
    fun t ht => Dialect.fits_of_mem_tokens hd ht (hwritten t ht)
  constructor
  · intro checker
    obtain ⟨hreport, hfault⟩ := Checker.fits_of_mem_check (c := checker) hfits
    exact ⟨fun g hg => (hreport g hg).pointsInto, fun f hf => (hfault f hf).pointsInto⟩
  · rintro c rfl failure (hf | ⟨kindOf, hf⟩ | ⟨env, hf⟩)
    · exact Compiled.covered_of_check hfits hf
    · exact Compiled.covered_of_inferKind hfits hf
    · exact Compiled.covered_of_evaluate hfits hf

set_option maxRecDepth 20000 in
/-- In `1 ü 2` nothing joins the two operands, and the character between them takes two bytes. -/
theorem Compiler.labels_covered_around_umlaut :
    Dialect.build .standard = .ok .standard ∧
    (∀ t ∈ Dialect.standard.tokens "1 ü 2", t.text ≠ "") ∧
    ∃ failure, (Scalar.sumCompiler.compile "1 ü 2").check = .error failure ∧
      failure.diagnostics.map (fun g => g.labels.map (toString ·.span)) = [["0..1", "5..6"]] ∧
      failure.Covered "1 ü 2" := by
  have hwritten : ∀ t ∈ Dialect.standard.tokens "1 ü 2", t.text ≠ "" := by
    have htokens : ∃ ts, Dialect.standard.tokens "1 ü 2" = ts ∧ ∀ t ∈ ts, t.text ≠ "" :=
      ⟨_, by cbv, by decide⟩
    obtain ⟨ts, rfl, hts⟩ := htokens
    exact hts
  have he : ∃ e, Scalar.sumCompiler.compile "1 ü 2" = e ∧ ∃ failure, e.check = .error failure ∧
      failure.diagnostics.map (fun g => g.labels.map (toString ·.span)) = [["0..1", "5..6"]] :=
    ⟨_, by cbv, _, rfl, rfl⟩
  obtain ⟨e, rfl, failure, hfailure, hlabels⟩ := he
  refine ⟨build_standard, hwritten, failure, hfailure, hlabels, ?_⟩
  have hdistinct := Dialect.distinct_of_build build_standard
  exact ((labels_covered hdistinct "1 ü 2").2 hwritten).2 Scalar.sumCompiler rfl failure
    (.inl hfailure)

end Reckon
