import Reckon.Proofs.Check.Report
import Reckon.Proofs.Term.Faults
import Reckon.Proofs.Term.Kinds

/-!
# Leniency is conservative

A lenient typing and an exact one differ only where the exact one finds a call without overload.
The relation `Typing.Conserves` between their results holds at every call, whatever the operands
give, and so for whole terms.
-/

namespace Reckon

variable {D : Domain}

namespace Typing

variable {s : Typing D} {α : Type}

/-- The typing that takes kinds only as they are. -/
def exact (s : Typing D) : Typing D := { s with lenient := false }

/-- The typing that lets kinds stand for others. -/
def relaxed (s : Typing D) : Typing D := { s with lenient := true }

/-! ## Resolution -/

theorem choose_exact (s : Typing D) (c : Callable D) (arguments : List (Argument D.Kind)) :
    s.exact.choose c arguments = c.resolve arguments false := by
  unfold choose
  cases c.resolve arguments false with
  | ok choice => rfl
  | error refusal => simp [exact]

/-- A call is resolved again only if no overload took it. -/
theorem choose_relaxed {c : Callable D} {arguments : List (Argument D.Kind)}
    (h : ∀ refusal, c.resolve arguments false = .error refusal → ¬ refusal.isNoMatch) :
    s.relaxed.choose c arguments = c.resolve arguments false := by
  unfold choose
  cases hr : c.resolve arguments false with
  | ok choice => rfl
  | error refusal => simp [h refusal hr]

/-! ## Conservation -/

/-- Lenient typing gives what exact typing gives, or exact typing lacks an overload somewhere and
lenient typing still tells all its other faults. -/
def Conserves (exact relaxed : Except (List TypeFault) α) : Prop :=
  relaxed = exact ∨
    (∃ f ∈ faults exact, f.isNoMatch) ∧ ∀ f ∈ faults exact, ¬ f.isNoMatch → f ∈ faults relaxed

namespace Conserves

variable {exact relaxed : Except (List TypeFault) α}

theorem mem_faults (h : Conserves exact relaxed) {f : TypeFault} (hf : f ∈ faults exact)
    (hno : ¬ f.isNoMatch) : f ∈ faults relaxed := by
  rcases h with rfl | ⟨-, hkeeps⟩
  · exact hf
  · exact hkeeps f hf hno

/-- Where no overload is lacking, there is no difference. -/
theorem eq_of_faults (h : Conserves exact relaxed) (hno : ∀ f ∈ faults exact, ¬ f.isNoMatch) :
    relaxed = exact := by
  rcases h with heq | ⟨⟨f, hf, hmatch⟩, -⟩
  · exact heq
  · exact absurd hmatch (hno f hf)

end Conserves

theorem bindCall_conserves (s : Typing D) (sort : CallSort) (tree : Tree) (operands : List Term)
    (typed : List (Typed D)) :
    Conserves (s.exact.bindCall sort tree operands typed)
      (s.relaxed.bindCall sort tree operands typed) := by
  have hexact : s.exact.catalog = s.catalog := rfl
  have hrelaxed : s.relaxed.catalog = s.catalog := rfl
  unfold bindCall
  rw [hexact, hrelaxed]
  cases s.catalog.callable? sort tree.token.text with
  | none => exact .inl rfl
  | some c =>
    dsimp only
    by_cases h : ∀ refusal, c.resolve (argumentsOf operands typed) false = .error refusal →
        ¬ refusal.isNoMatch
    · rw [choose_relaxed h, choose_exact]
      exact .inl rfl
    · obtain ⟨refusal, hr, hmatch⟩ : ∃ refusal,
          c.resolve (argumentsOf operands typed) false = .error refusal ∧ refusal.isNoMatch := by
        simpa using h
      rw [choose_exact, hr]
      refine .inr ⟨⟨_, List.mem_singleton.mpr rfl, hmatch⟩, ?_⟩
      intro f hf hno
      rw [List.mem_singleton.mp hf] at hno
      exact absurd hmatch hno

mutual

theorem bind_conserves (s : Typing D) : ∀ t : Term, Conserves (s.exact.bind t) (s.relaxed.bind t)
  | .literal _ | .name _ | .absent _ | .stray _ | .alien _ => .inl (by simp [bind, exact, relaxed])
  | .call sort tree operands => by
    rcases bindAll_conserves s operands with heq | ⟨⟨f, hf, hmatch⟩, hkeeps⟩
    · rw [bind, bind, heq]
      cases hops : s.exact.bindAll operands with
      | error fs => exact .inl rfl
      | ok typed =>
        dsimp only
        split
        · exact .inl rfl
        · exact bindCall_conserves s sort tree operands typed
    · refine .inr ⟨⟨f, ?_, hmatch⟩, ?_⟩
      · rw [faults_bind_call]
        exact List.mem_append_left _ hf
      · intro g hg hno
        rw [faults_bind_call, List.mem_append] at hg ⊢
        rcases hg with hg | hg
        · exact .inl (hkeeps g hg hno)
        · -- The operands are at fault, so the only fault of the call itself is a missing operand.
          refine .inr ?_
          unfold ownFaults at hg ⊢
          by_cases hshort : operands.length < sort.wanted operands.length
          · rw [if_pos hshort] at hg ⊢
            exact hg
          · rw [if_neg hshort] at hg
            cases hops : s.exact.bindAll operands with
            | ok typed =>
              rw [hops] at hf
              cases hf
            | error fs =>
              rw [hops] at hg
              cases hg

theorem bindAll_conserves (s : Typing D) :
    ∀ ts : List Term, Conserves (s.exact.bindAll ts) (s.relaxed.bindAll ts)
  | [] => .inl rfl
  | t :: ts => by
    have ht := bind_conserves s t
    have hts := bindAll_conserves s ts
    by_cases hno : ∀ f ∈ faults (s.exact.bindAll (t :: ts)), ¬ f.isNoMatch
    · simp only [faults_bindAll_cons, List.mem_append] at hno
      refine .inl ?_
      rw [bindAll, bindAll, ht.eq_of_faults fun f hf => hno f (.inl hf),
        hts.eq_of_faults fun f hf => hno f (.inr hf)]
    · refine .inr ⟨by simpa using hno, ?_⟩
      intro f hf hmatch
      rw [faults_bindAll_cons, List.mem_append] at hf ⊢
      exact hf.imp (fun hf => ht.mem_faults hf hmatch) (fun hf => hts.mem_faults hf hmatch)

end

end Typing

/-! ## Compiled expressions -/

namespace Compiler

/-- The compiler whose typing is exact. -/
def exact (c : Compiler D) : Compiler D := { c with lenient := false }

/-- The compiler whose typing is lenient. -/
def relaxed (c : Compiler D) : Compiler D := { c with lenient := true }

/-- Leniency has no part in parsing and checking. -/
theorem compile_relaxed (c : Compiler D) (source : String) :
    c.relaxed.compile source = { c.exact.compile source with compiler := c.relaxed } := by
  have hexact : c.exact.dialect = c.dialect := rfl
  have hrelaxed : c.relaxed.dialect = c.dialect := rfl
  unfold compile
  rw [hexact, hrelaxed]
  cases hpolish : Polish.ofTokens c.dialect (c.dialect.tokens source) with
  | error fault => simp [exact, hpolish, faultReport, relaxed]
  | ok polish => cases htree : Tree.ofPolish polish <;>
      simp [exact, hpolish, htree, faultReport, relaxed]

end Compiler

namespace Compiled

variable {e e' : Compiled D} {kindOf : String → Option D.Kind}

theorem inferKind_eq_of_bind (hcheck : e'.check = e.check) (hsource : e'.source = e.source)
    (hbind : ∀ tree, e.check = .ok tree → e'.bind tree kindOf = e.bind tree kindOf) :
    e'.inferKind kindOf = e.inferKind kindOf := by
  unfold inferKind
  rw [hcheck, hsource]
  cases h : e.check with
  | error failure => rfl
  | ok tree => simp only [hbind tree h]

theorem evaluate_eq_of_bind {env : Environment D} (hcheck : e'.check = e.check)
    (hsource : e'.source = e.source) (hdialect : e'.compiler.dialect = e.compiler.dialect)
    (hbind : ∀ tree, e.check = .ok tree → e'.bind tree env.kindOf? = e.bind tree env.kindOf?) :
    e'.evaluate env = e.evaluate env := by
  unfold evaluate
  rw [hcheck, hsource, hdialect]
  cases h : e.check with
  | error failure => rfl
  | ok tree => simp only [hbind tree h]

/-- Inference of the kind tells of no call that lacks an overload. -/
def LacksNoOverload (e : Compiled D) (kindOf : String → Option D.Kind) : Prop :=
  ∀ failure, e.inferKind kindOf = .error failure →
    ∀ g ∈ failure.diagnostics, g.code ≠ some .noMatchingOverload

theorem LacksNoOverload.not_isNoMatch (h : e.LacksNoOverload kindOf) {tree : Tree}
    (hcheck : e.check = .ok tree) :
    ∀ f ∈ Typing.faults (e.bind tree kindOf), ¬ f.isNoMatch := by
  intro f hf hmatch
  cases hb : e.bind tree kindOf with
  | ok b =>
    rw [hb] at hf
    cases hf
  | error fs =>
    rw [hb] at hf
    have hfailure : e.inferKind kindOf = .error (.parse (fs.map (·.diagnostic)) e.source) := by
      unfold inferKind
      rw [hcheck]
      dsimp only
      rw [hb]
    exact h _ hfailure _ (List.mem_map_of_mem hf)
      (TypeFault.code_eq_noMatchingOverload_iff.mpr hmatch)

theorem bind_relaxed {c : Compiler D} {source : String} {tree : Tree}
    (h : (c.exact.compile source).LacksNoOverload kindOf)
    (hcheck : (c.exact.compile source).check = .ok tree) :
    (c.relaxed.compile source).bind tree kindOf = (c.exact.compile source).bind tree kindOf := by
  have hconserves := (Typing.bind_conserves ⟨c.catalog, kindOf, c.lenient⟩
    (Term.ofTree c.dialect tree)).eq_of_faults
  have hfaults := h.not_isNoMatch hcheck
  unfold bind at hfaults ⊢
  rw [Compiler.compiler_compile] at hfaults ⊢
  rw [Compiler.compiler_compile]
  exact hconserves hfaults

theorem check_relaxed (c : Compiler D) (source : String) :
    (c.relaxed.compile source).check = (c.exact.compile source).check := by
  rw [Compiler.compile_relaxed]
  rfl

theorem inferKind_relaxed {c : Compiler D} {source : String}
    (h : (c.exact.compile source).LacksNoOverload kindOf) :
    (c.relaxed.compile source).inferKind kindOf = (c.exact.compile source).inferKind kindOf := by
  refine inferKind_eq_of_bind (check_relaxed c source) ?_ fun tree htree => bind_relaxed h htree
  rw [Compiler.source_compile, Compiler.source_compile]

theorem evaluate_relaxed {c : Compiler D} {source : String} {env : Environment D}
    (h : (c.exact.compile source).LacksNoOverload env.kindOf?) :
    (c.relaxed.compile source).evaluate env = (c.exact.compile source).evaluate env := by
  refine evaluate_eq_of_bind (check_relaxed c source) ?_ ?_ fun tree htree => bind_relaxed h htree
  · rw [Compiler.source_compile, Compiler.source_compile]
  · rw [Compiler.compiler_compile, Compiler.compiler_compile]
    rfl

/-- **Leniency is conservative.**  What exact typing binds, lenient typing binds in the same way,
with the same overload at every call.  If exact typing fails but no call lacks an overload, lenient
typing tells the same faults; in any case it tells all faults but the calls without overload.  A
call that is refused for another reason is not tried again.  So kind and value of an expression are
the same unless exact typing finds a call without overload. -/
theorem leniency_conservative (s : Typing D) (c : Compiler D) :
    (∀ d tree b, s.exact.bind (Term.ofTree d tree) = .ok b →
      s.relaxed.bind (Term.ofTree d tree) = .ok b) ∧
    (∀ d tree faults, s.exact.bind (Term.ofTree d tree) = .error faults →
      (∀ f ∈ faults, f.diagnostic.code ≠ some .noMatchingOverload) →
      s.relaxed.bind (Term.ofTree d tree) = .error faults) ∧
    (∀ d tree faults, s.exact.bind (Term.ofTree d tree) = .error faults →
      ∀ f ∈ faults, f.diagnostic.code ≠ some .noMatchingOverload →
        ∃ more, s.relaxed.bind (Term.ofTree d tree) = .error more ∧ f ∈ more) ∧
    (∀ (callable : Callable D) arguments refusal,
      callable.resolve arguments false = .error refusal → refusal.code ≠ .noMatchingOverload →
      s.relaxed.choose callable arguments = .error refusal) ∧
    (∀ source kindOf, (c.exact.compile source).LacksNoOverload kindOf →
      (c.relaxed.compile source).inferKind kindOf = (c.exact.compile source).inferKind kindOf) ∧
    ∀ source (env : Environment D), (c.exact.compile source).LacksNoOverload env.kindOf? →
      (c.relaxed.compile source).evaluate env = (c.exact.compile source).evaluate env := by
  simp only [ne_eq, TypeFault.code_eq_noMatchingOverload_iff,
    Refusal.code_eq_noMatchingOverload_iff]
  refine ⟨?_, ?_, ?_, ?_, fun source kindOf h => inferKind_relaxed h,
    fun source env h => evaluate_relaxed h⟩
  · intro d tree b hb
    have hconserves := Typing.bind_conserves s (Term.ofTree d tree)
    rw [hb] at hconserves
    exact hconserves.eq_of_faults fun f hf => nomatch hf
  · intro d tree faults hfaults hno
    have hconserves := Typing.bind_conserves s (Term.ofTree d tree)
    rw [hfaults] at hconserves
    exact hconserves.eq_of_faults hno
  · intro d tree faults hfaults f hf hno
    have hconserves := Typing.bind_conserves s (Term.ofTree d tree)
    rw [hfaults] at hconserves
    have hmem := hconserves.mem_faults hf hno
    cases hrelaxed : s.relaxed.bind (Term.ofTree d tree) with
    | ok b =>
      rw [hrelaxed] at hmem
      cases hmem
    | error more =>
      rw [hrelaxed] at hmem
      exact ⟨more, rfl, hmem⟩
  · intro callable arguments refusal hr hno
    rw [Typing.choose_relaxed, hr]
    intro other hother
    rw [← Except.error.inj (hr.symm.trans hother)]
    exact hno

end Compiled

/-- Leniency changes neither the value of `2 + x` nor what is told of `2 + y`. -/
theorem Compiled.leniency_conservative_on_sums :
    (Scalar.sumCompiler.relaxed.compile "2 + x").evaluate Scalar.three = .ok (Scalar.int 5) ∧
    ∃ failure, (Scalar.sumCompiler.relaxed.compile "2 + y").inferKind
        (OrderedMap.kindOf? Scalar.three) = .error failure ∧
      failure.diagnostics.map (·.code) = [some .unboundVariable] := by
  have hx : ∃ e, Scalar.sumCompiler.exact.compile "2 + x" = e ∧
      e.inferKind (OrderedMap.kindOf? Scalar.three) = .ok ScalarKind.int ∧
      e.evaluate Scalar.three = .ok (Scalar.int 5) := ⟨_, by cbv, rfl, rfl⟩
  have hy : ∃ e, Scalar.sumCompiler.exact.compile "2 + y" = e ∧ ∃ failure,
      e.inferKind (OrderedMap.kindOf? Scalar.three) = .error failure ∧
      failure.diagnostics.map (·.code) = [some .unboundVariable] := ⟨_, by cbv, _, rfl, rfl⟩
  obtain ⟨_, rfl, hkind, hvalue⟩ := hx
  obtain ⟨_, rfl, failure, hfailure, hcodes⟩ := hy
  obtain ⟨-, -, -, -, hinfer, hevaluate⟩ :=
    leniency_conservative (Scalar.sumTyping Scalar.three) Scalar.sumCompiler
  constructor
  · rw [hevaluate, hvalue]
    intro other hother
    cases hkind.symm.trans hother
  · refine ⟨failure, ?_, hcodes⟩
    rw [hinfer, hfailure]
    intro other hother g hg hcode
    rw [Except.error.inj (hother.symm.trans hfailure)] at hg
    have hmem := List.mem_map_of_mem (f := Diagnostic.code) hg
    rw [hcodes, hcode] at hmem
    simp at hmem

end Reckon
