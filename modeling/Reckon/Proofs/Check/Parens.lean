import Mathlib
import Reckon.Check.Report
import Reckon.Proofs.Check.Diagnostics
import Reckon.Proofs.Polish.Language
import Reckon.Proofs.Scan.Parens

/-!
# Parentheses in the text and in the conversion

The check of parentheses looks at the characters of the text, the conversion at tokens.  Their
states agree step by step (`Owns`): the free opening parentheses of the one belong to the open
groups of the other.  So both find the same faults.
-/

namespace Reckon

variable {d : Dialect} {ts : List Token}

/-! ## Pairing -/

namespace Paren.Pairing

variable {s : Pairing} {p : Paren} {ps : List Paren}

/-- Free parentheses open, stray ones close. -/
structure Sided (s : Pairing) : Prop where
  free : ∀ p ∈ s.free, p.side = .opening
  stray : ∀ p ∈ s.stray, p.side = .closing

theorem Sided.add (h : s.Sided) (p : Paren) : (s.add p).Sided := by
  rw [Pairing.add]
  cases hp : p.side with
  | opening => exact ⟨List.forall_mem_cons.mpr ⟨hp, h.free⟩, h.stray⟩
  | closing =>
    cases hf : s.free with
    | nil => exact ⟨by simp, List.forall_mem_cons.mpr ⟨hp, h.stray⟩⟩
    | cons opener free =>
      refine ⟨fun q hq => h.free q ?_, h.stray⟩
      rw [hf]
      exact List.mem_cons_of_mem opener hq

theorem Sided.addAll (h : s.Sided) (ps : List Paren) : (ps.foldl Pairing.add s).Sided := by
  induction ps generalizing s with
  | nil => exact h
  | cons p ps ih => exact ih (h.add p)

theorem sided_pair (ps : List Paren) : (pair ps).Sided :=
  Sided.addAll ⟨by simp, by simp⟩ ps

/-- What is stray stays so. -/
theorem exists_stray_addAll (s : Pairing) (ps : List Paren) :
    ∃ later, (ps.foldl Pairing.add s).stray = later ++ s.stray := by
  induction ps generalizing s with
  | nil => exact ⟨[], rfl⟩
  | cons p ps ih =>
    obtain ⟨later, hlater⟩ := ih (s.add p)
    have hadd : ∃ front, (s.add p).stray = front ++ s.stray := by
      rw [Pairing.add]
      cases p.side with
      | opening => exact ⟨[], rfl⟩
      | closing =>
        cases s.free with
        | nil => exact ⟨[p], rfl⟩
        | cons opener free => exact ⟨[], rfl⟩
    obtain ⟨front, hfront⟩ := hadd
    exact ⟨later ++ front, by rw [List.foldl_cons, hlater, hfront, List.append_assoc]⟩

end Paren.Pairing

/-! ## Conversion -/

namespace Polish

open Paren

variable {s s' : Polish} {P : Pairing} {t : Token}

/-- The open groups, which are among `ts`, own these parentheses. -/
def Owns (d : Dialect) (ts : List Token) (opened : List Token) (free : List Paren) : Prop :=
  List.Forall₂ (fun t p => t ∈ ts ∧ ofToken? d t = some p) opened free

theorem ofToken?_of_opensGroup (hk : t.kind.opensGroup) (ht : t.position.isSome) :
    ∃ p, ofToken? d t = some p ∧ p.side = .opening := by
  obtain ⟨o, ho⟩ := Option.isSome_iff_exists.mp ht
  cases hk' : t.kind <;> simp_all [ofToken?, TokenKind.opensGroup]

theorem ofToken?_of_closing (hk : t.kind = .closing) (ht : t.position.isSome) :
    ∃ p, ofToken? d t = some p ∧ p.side = .closing := by
  obtain ⟨o, ho⟩ := Option.isSome_iff_exists.mp ht
  simp [ofToken?, hk, ho]

theorem ofToken?_of_other (hk : ¬ t.kind.opensGroup) (hk' : t.kind ≠ .closing) :
    ofToken? d t = none := by
  cases h : t.kind <;> simp_all [ofToken?, TokenKind.opensGroup]

/-- A step keeps the open groups and the free parentheses together, and leaves none stray. -/
theorem Owns.step (h : Owns d ts (groups s.stack) P.free) (hstep : Step d s t s') (ht : t ∈ ts)
    (hpos : t.position.isSome) :
    Owns d ts (groups s'.stack) (([t].filterMap (ofToken? d)).foldl Pairing.add P).free ∧
      (([t].filterMap (ofToken? d)).foldl Pairing.add P).stray = P.stray := by
  rcases groups_step hstep with ⟨hk, hg⟩ | ⟨hk, opener, hg⟩ | ⟨hk, hk', hg⟩
  · obtain ⟨p, hp, hside⟩ := ofToken?_of_opensGroup (d := d) hk hpos
    rw [hg, List.filterMap_cons_some hp, List.filterMap_nil, List.foldl_cons, List.foldl_nil,
      Pairing.add, hside]
    exact ⟨.cons ⟨ht, hp⟩ h, rfl⟩
  · obtain ⟨p, hp, hside⟩ := ofToken?_of_closing (d := d) hk hpos
    rw [hg] at h
    obtain ⟨q, free, -, hfree, hP⟩ := List.forall₂_cons_left_iff.mp h
    rw [List.filterMap_cons_some hp, List.filterMap_nil, List.foldl_cons, List.foldl_nil,
      Pairing.add, hside]
    dsimp only
    rw [hP]
    exact ⟨hfree, rfl⟩
  · rw [hg, List.filterMap_cons_none (ofToken?_of_other hk hk')]
    exact ⟨h, rfl⟩

/-- The conversion goes through as long as no parenthesis is stray; the first stray one stops it. -/
theorem Owns.run {us : List Token} (h : Owns d ts (groups s.stack) P.free)
    (hus : ∀ t ∈ us, t ∈ ts ∧ t.position.isSome) :
    (∃ s', run d s us = .ok s' ∧
      Owns d ts (groups s'.stack) ((us.filterMap (ofToken? d)).foldl Pairing.add P).free ∧
      ((us.filterMap (ofToken? d)).foldl Pairing.add P).stray = P.stray) ∨
    ∃ close p later, run d s us = .error (.unmatchedClose close d.opening) ∧ close ∈ ts ∧
      close.kind = .closing ∧ ofToken? d close = some p ∧
      ((us.filterMap (ofToken? d)).foldl Pairing.add P).stray = later ++ p :: P.stray := by
  induction us generalizing s P with
  | nil => exact .inl ⟨s, rfl, h, rfl⟩
  | cons t us ih =>
    obtain ⟨ht, hpos⟩ := hus t List.mem_cons_self
    have hsplit : ((t :: us).filterMap (ofToken? d)).foldl Pairing.add P =
        (us.filterMap (ofToken? d)).foldl Pairing.add
          (([t].filterMap (ofToken? d)).foldl Pairing.add P) := by
      rw [← List.foldl_append, ← List.filterMap_append]
      rfl
    rw [hsplit]
    rcases step_or_stray d s t with ⟨s₁, h₁⟩ | ⟨hk, hs⟩
    · obtain ⟨howns, hstray⟩ := h.step h₁ ht hpos
      rw [run_cons_of_step h₁, ← hstray]
      exact ih howns fun u hu => hus u (List.mem_cons_of_mem t hu)
    · obtain ⟨p, hp, hside⟩ := ofToken?_of_closing (d := d) hk hpos
      have hfree : P.free = [] := by
        rw [groups_eq_nil_iff.mpr hs] at h
        exact List.forall₂_nil_left_iff.mp h
      have hadd : ([t].filterMap (ofToken? d)).foldl Pairing.add P =
          { P with stray := p :: P.stray } := by
        rw [List.filterMap_cons_some hp, List.filterMap_nil, List.foldl_cons, List.foldl_nil,
          Pairing.add, hside]
        dsimp only
        rw [hfree]
      obtain ⟨later, hlater⟩ := Pairing.exists_stray_addAll { P with stray := p :: P.stray }
        (us.filterMap (ofToken? d))
      refine .inr ⟨t, p, later, ?_, ht, hk, hp, by rw [hadd, hlater]⟩
      rw [run_cons, push_stray hk hs]
      rfl

end Polish

/-! ## Faults -/

namespace Paren

variable {source : String}

theorem invalid_inspect (d : Dialect) (source : String) : (inspect d source).invalid =
    (pair (inText d source.toList)).stray.reverse ++
      (pair (inText d source.toList)).free.reverse := rfl

/-- The three ways in which the check and the conversion end together. -/
inductive Agrees (d : Dialect) (source : String) : Except Fault (List Token) → Prop
  | balanced (polish : List Token) (h : (inspect d source).invalid = []) :
      Agrees d source (.ok polish)
  | stray (close : Token) (p : Paren) (hclose : close ∈ d.tokens source)
      (hk : close.kind = .closing) (hp : ofToken? d close = some p)
      (h : (inspect d source).invalid.find? (·.side == .closing) = some p) :
      Agrees d source (.error (.unmatchedClose close d.opening))
  | unclosed (opener : Token) (p : Paren) (hopener : opener ∈ d.tokens source)
      (hk : opener.kind.opensGroup) (hp : ofToken? d opener = some p)
      (hall : ∀ q ∈ (inspect d source).invalid, q.side = .opening)
      (h : (inspect d source).invalid.getLast? = some p) :
      Agrees d source (.error (Polish.unclosed d opener))

theorem agrees (hd : d.Distinct) (h : d.FreeWords (d.tokens source)) :
    Agrees d source (Polish.ofTokens d (d.tokens source)) := by
  have hparens := Dialect.filterMap_ofToken?_tokens hd h
  have hsided := Pairing.sided_pair (inText d source.toList)
  have hstart : Polish.Owns d (d.tokens source) (Polish.groups Polish.start.stack)
      (Pairing.mk [] [] []).free := .nil
  have hrun := hstart.run fun t ht => ⟨ht, Dialect.position_of_mem_tokens hd ht⟩
  rw [hparens] at hrun
  rcases hrun with ⟨s, hrun, howns, hstray⟩ | ⟨close, p, later, hrun, hmem, hk, hp, hstray⟩
  · have hstray : (pair (inText d source.toList)).stray = [] := hstray
    rw [Polish.ofTokens_of_run_ok hrun]
    have howns : Polish.Owns d (d.tokens source) (Polish.groups s.stack)
      (pair (inText d source.toList)).free := howns
    have hinvalid : (inspect d source).invalid =
        (pair (inText d source.toList)).free.reverse := by
      rw [invalid_inspect, hstray]
      rfl
    cases hgroups : Polish.groups s.stack with
    | nil =>
      rw [hgroups] at howns
      rw [Polish.finish, Polish.popAll_waiting (Polish.groups_eq_nil_iff.mp hgroups)]
      refine .balanced _ ?_
      rw [hinvalid, List.forall₂_nil_left_iff.mp howns]
      rfl
    | cons opener opened =>
      rw [hgroups] at howns
      obtain ⟨p, free, ⟨hopener, hp⟩, -, hfree⟩ := List.forall₂_cons_left_iff.mp howns
      have hk : opener.kind.opensGroup := by
        have hmem : opener ∈ Polish.groups s.stack := by rw [hgroups]; exact List.mem_cons_self
        exact (List.mem_filter.mp hmem).2
      rw [Polish.finish_eq_unclosed hgroups]
      refine .unclosed opener p hopener hk hp ?_ ?_
      · rw [hinvalid]
        exact fun q hq => hsided.free q (List.mem_reverse.mp hq)
      · rw [hinvalid, hfree, List.reverse_cons, List.getLast?_append]
        rfl
  · have hstray : (pair (inText d source.toList)).stray = later ++ [p] := hstray
    rw [Polish.ofTokens_of_run_error hrun]
    refine .stray close p hmem hk hp ?_
    have hside : p.side = .closing := hsided.stray p (by rw [hstray]; simp)
    rw [invalid_inspect, hstray]
    simp [hside]

end Paren

/-! ## Faults in reports -/

/-- What building a tree finds wrong is not about parentheses. -/
theorem Tree.code_of_ofPolish {polish : List Token} {f : Fault} (h : ofPolish polish = .error f) :
    f.code = .emptyExpression ∨ f.code = .residualOperands := by
  unfold ofPolish at h
  split at h
  · exact .inl (Except.error.inj h ▸ rfl)
  · cases h
  · exact .inr (Except.error.inj h ▸ rfl)

namespace Checker

variable {c : Checker} {source : String} {g : Diagnostic}

/-- A fault of parentheses that the check finds is not told a second time. -/
theorem faultDiagnostics_of_invalid {r : Report} {v : Verdicts Paren} {f : Fault}
    (hv : r.parentheses = some v) (hinvalid : v.invalid ≠ []) (hf : r.fault = some f)
    (hcode : f.code = .unmatchedClose ∨ f.code = .unclosedGroup) : r.faultDiagnostics = [] := by
  have hfails : Report.fails r.parentheses = true := by
    rw [hv]
    simpa [Report.fails, Verdicts.passes] using hinvalid
  rw [Report.faultDiagnostics, hf]
  rcases hcode with hcode | hcode <;> simp [hcode, hfails]

theorem checkText_parentheses (hc : c.checks.contains .parentheses) :
    (c.checkText d source).parentheses = some (Paren.inspect d source) := by
  rw [checkText, ifSelected, if_pos hc]

theorem check_of_parse_error {f : Fault} (h : d.parse source = .error f) :
    c.check d source = { c.checkText d source with fault := some f } := by
  rw [check, h]

theorem faultDiagnostics_check {f : Fault} (hc : c.checks.contains .parentheses)
    (hres : Polish.ofTokens d (d.tokens source) = .error f)
    (hinvalid : (Paren.inspect d source).invalid ≠ [])
    (hcode : f.code = .unmatchedClose ∨ f.code = .unclosedGroup) :
    (c.check d source).faultDiagnostics = [] := by
  have htext := @checkText_parentheses d c source hc
  have hparse : d.parse source = .error f := by
    simp [Dialect.parse, hres, bind, Except.bind]
  rw [check_of_parse_error hparse]
  exact faultDiagnostics_of_invalid htext hinvalid rfl hcode

/-- Behind the conversion no fault of parentheses can arise. -/
theorem code_of_mem_faultDiagnostics {polish : List Token}
    (hres : Polish.ofTokens d (d.tokens source) = .ok polish)
    (hg : g ∈ (c.check d source).faultDiagnostics) :
    g.code ≠ some .unmatchedClose ∧ g.code ≠ some .unclosedGroup := by
  cases htree : Tree.ofPolish polish with
  | ok tree =>
    have hparse : d.parse source = .ok ⟨d.tokens source, polish, tree⟩ := by
      simp [Dialect.parse, hres, htree, bind, Except.bind, pure, Except.pure]
    rw [check, hparse] at hg
    simp [Report.faultDiagnostics, checkTree, checkText] at hg
  | error f =>
    have hparse : d.parse source = .error f := by
      simp [Dialect.parse, hres, htree, bind, Except.bind]
    rw [check_of_parse_error hparse] at hg
    obtain ⟨_, hfault, rfl⟩ := Report.mem_faultDiagnostics hg
    cases hfault
    rw [Fault.code_diagnostic]
    rcases Tree.code_of_ofPolish htree with hf | hf <;> simp [hf]

/-- A report that looks at the parentheses does not tell their faults as structural ones. -/
theorem code_of_mem_check (hd : d.Distinct) (h : d.FreeWords (d.tokens source))
    (hc : c.checks.contains .parentheses) (hg : g ∈ (c.check d source).diagnostics) :
    g.code ≠ some .unmatchedClose ∧ g.code ≠ some .unclosedGroup := by
  rcases Report.mem_diagnostics hg with hg | ⟨-, code, hcode, hnot⟩
  · have hagrees := Paren.agrees hd h
    generalize hres : Polish.ofTokens d (d.tokens source) = res at hagrees
    cases hagrees with
    | balanced polish hinvalid => exact code_of_mem_faultDiagnostics hres hg
    | stray close p hclose hk hp hfirst =>
      have hne := List.ne_nil_of_mem (List.mem_of_find?_eq_some hfirst)
      rw [faultDiagnostics_check hc hres hne (.inl rfl)] at hg
      cases hg
    | unclosed opener p hopener hk hp hall hlast =>
      have hne := List.ne_nil_of_mem (List.mem_of_getLast? hlast)
      rw [faultDiagnostics_check hc hres hne (.inr (Polish.code_unclosed d opener))] at hg
      cases hg
  · have hne : ∀ structural : Code, structural.isStructural → g.code ≠ some structural := by
      intro structural hs hg
      rw [hcode] at hg
      exact hnot (Option.some.inj hg ▸ hs)
    exact ⟨hne _ rfl, hne _ rfl⟩

end Checker

/-! ## The two agree -/

namespace Paren.Agrees

variable {source : String} {result : Except Fault (List Token)}

theorem passes_iff (h : Agrees d source result) :
    (inspect d source).passes ↔ ∃ polish, result = .ok polish := by
  rw [Verdicts.passes, List.isEmpty_iff]
  cases h with
  | balanced polish hnil => exact ⟨fun _ => ⟨polish, rfl⟩, fun _ => hnil⟩
  | stray close p hclose hk hp hfirst =>
    constructor
    · intro hnil
      rw [hnil] at hfirst
      cases hfirst
    · rintro ⟨_, hres⟩
      cases hres
  | unclosed opener p hopener hk hp hall hlast =>
    constructor
    · intro hnil
      rw [hnil] at hlast
      cases hlast
    · rintro ⟨_, hres⟩
      cases hres

theorem stray_iff (h : Agrees d source result) :
    (∃ f, result = .error f ∧ f.code = .unmatchedClose) ↔
      ∃ p ∈ (inspect d source).invalid, p.side = .closing := by
  cases h with
  | balanced polish hnil =>
    rw [hnil]
    constructor
    · rintro ⟨_, hres, -⟩
      cases hres
    · rintro ⟨_, hp, -⟩
      cases hp
  | stray close p hclose hk hp hfirst =>
    have hside := List.find?_some hfirst
    exact ⟨fun _ => ⟨p, List.mem_of_find?_eq_some hfirst, eq_of_beq hside⟩,
      fun _ => ⟨_, rfl, rfl⟩⟩
  | unclosed opener p hopener hk hp hall hlast =>
    constructor
    · rintro ⟨f, hres, hcode⟩
      rw [← Except.error.inj hres, Polish.code_unclosed] at hcode
      cases hcode
    · rintro ⟨q, hq, hside⟩
      rw [hall q hq] at hside
      cases hside

/-- The first stray parenthesis is what is labelled. -/
theorem stray_label (hd : d.Distinct) (h : Agrees d source result) {f : Fault}
    (hf : result = .error f) (hcode : f.code = .unmatchedClose) :
    ∃ p, (inspect d source).invalid.find? (·.side == .closing) = some p ∧
      f.diagnostic.labels.map (·.span) = [p.span] := by
  cases h with
  | balanced polish hnil => cases hf
  | stray close p hclose hk hp hfirst =>
    cases hf
    refine ⟨p, hfirst, ?_⟩
    rw [Fault.labels_diagnostic rfl, Dialect.span_of_mem_tokens hd hclose (.inr hk) hp]
    rfl
  | unclosed opener p hopener hk hp hall hlast =>
    rw [← Except.error.inj hf, Polish.code_unclosed] at hcode
    cases hcode

theorem unclosed_iff (h : Agrees d source result) :
    (∃ f, result = .error f ∧ f.code = .unclosedGroup) ↔
      (inspect d source).invalid ≠ [] ∧
        ∀ p ∈ (inspect d source).invalid, p.side = .opening := by
  cases h with
  | balanced polish hnil =>
    constructor
    · rintro ⟨_, hres, -⟩
      cases hres
    · rintro ⟨hne, -⟩
      exact absurd hnil hne
  | stray close p hclose hk hp hfirst =>
    constructor
    · rintro ⟨f, hres, hcode⟩
      rw [← Except.error.inj hres] at hcode
      cases hcode
    · rintro ⟨-, hall⟩
      have hside := List.find?_some hfirst
      rw [hall p (List.mem_of_find?_eq_some hfirst)] at hside
      cases hside
  | unclosed opener p hopener hk hp hall hlast =>
    refine ⟨fun _ => ⟨fun hnil => ?_, hall⟩,
      fun _ => ⟨_, rfl, Polish.code_unclosed d opener⟩⟩
    rw [hnil] at hlast
    cases hlast

/-- The last free parenthesis is what is labelled, by the name of its call if it has one. -/
theorem unclosed_label (hd : d.Distinct) (h : Agrees d source result) {f : Fault}
    (hf : result = .error f) (hcode : f.code = .unclosedGroup) :
    ∃ opener ∈ d.tokens source, ∃ p, (inspect d source).invalid.getLast? = some p ∧
      ofToken? d opener = some p ∧
      f.diagnostic.labels.map (·.span) = opener.span.toList ∧
      (opener.kind = .opening ∧ opener.span = some p.span ∨ opener.kind = .call) := by
  cases h with
  | balanced polish hnil => cases hf
  | stray close p hclose hk hp hfirst =>
    rw [← Except.error.inj hf] at hcode
    cases hcode
  | unclosed opener p hopener hk hp hall hlast =>
    cases hf
    refine ⟨opener, hopener, p, hlast, hp, ?_, ?_⟩
    · rw [Polish.unclosed]
      split
      · exact Fault.labels_diagnostic rfl
      · exact Fault.labels_diagnostic rfl
    · cases hkind : opener.kind <;> rw [hkind] at hk <;> try cases hk
      · exact .inl ⟨rfl, Dialect.span_of_mem_tokens hd hopener (.inl hkind) hp⟩
      · exact .inr rfl

end Paren.Agrees

instance (d : Dialect) (ts : List Token) : Decidable (d.FreeWords ts) :=
  inferInstanceAs (Decidable (∀ t ∈ ts, _))

/-- **The check of parentheses and the conversion agree**, if no word of the text holds a
parenthesis.  The conversion stops at the first closing parenthesis that the check finds stray, else
at the last opening one that it finds free, which may be the one behind the name of a call.  So no
report that looks at the parentheses tells their faults as structural ones. -/
theorem Paren.conversion_agrees {source : String} (hd : d.Distinct)
    (h : d.FreeWords (d.tokens source)) :
    ((inspect d source).passes ↔ ∃ polish, Polish.ofTokens d (d.tokens source) = .ok polish) ∧
    ((∃ f, Polish.ofTokens d (d.tokens source) = .error f ∧ f.code = .unmatchedClose) ↔
      ∃ p ∈ (inspect d source).invalid, p.side = .closing) ∧
    (∀ f, Polish.ofTokens d (d.tokens source) = .error f → f.code = .unmatchedClose →
      ∃ p, (inspect d source).invalid.find? (·.side == .closing) = some p ∧
        f.diagnostic.labels.map (·.span) = [p.span]) ∧
    ((∃ f, Polish.ofTokens d (d.tokens source) = .error f ∧ f.code = .unclosedGroup) ↔
      (inspect d source).invalid ≠ [] ∧ ∀ p ∈ (inspect d source).invalid, p.side = .opening) ∧
    (∀ f, Polish.ofTokens d (d.tokens source) = .error f → f.code = .unclosedGroup →
      ∃ opener ∈ d.tokens source, ∃ p, (inspect d source).invalid.getLast? = some p ∧
        ofToken? d opener = some p ∧
        f.diagnostic.labels.map (·.span) = opener.span.toList ∧
        (opener.kind = .opening ∧ opener.span = some p.span ∨ opener.kind = .call)) ∧
    ∀ c : Checker, c.checks.contains .parentheses → ∀ g ∈ (c.check d source).diagnostics,
      g.code ≠ some .unmatchedClose ∧ g.code ≠ some .unclosedGroup := by
  have hagrees := agrees hd h
  exact ⟨hagrees.passes_iff, hagrees.stray_iff, fun f hf hcode => hagrees.stray_label hd hf hcode,
    hagrees.unclosed_iff, fun f hf hcode => hagrees.unclosed_label hd hf hcode,
    fun c hc g hg => Checker.code_of_mem_check hd h hc hg⟩

/-- The second parenthesis of `2) + f(3` is free, but the first one is told. -/
theorem Paren.conversion_agrees_on_stray :
    Dialect.standard.FreeWords (Dialect.standard.tokens "2) + f(3") ∧
    (inspect .standard "2) + f(3").invalid = [⟨.closing, ')', 1⟩, ⟨.opening, '(', 6⟩] ∧
    ∃ f, Polish.ofTokens .standard (Dialect.standard.tokens "2) + f(3") = .error f ∧
      f.code = .unmatchedClose := by
  have hfree : ∃ ts, Dialect.standard.tokens "2) + f(3" = ts ∧ Dialect.standard.FreeWords ts :=
    ⟨_, by cbv, by decide⟩
  obtain ⟨_, rfl, hfree⟩ := hfree
  have hinvalid : (inspect .standard "2) + f(3").invalid =
      [⟨.closing, ')', 1⟩, ⟨.opening, '(', 6⟩] := by decide
  have hdistinct := Dialect.distinct_of_build build_standard
  refine ⟨hfree, hinvalid, (conversion_agrees hdistinct hfree).2.1.mpr ?_⟩
  rw [hinvalid]
  exact ⟨_, List.mem_cons_self, rfl⟩

end Reckon
