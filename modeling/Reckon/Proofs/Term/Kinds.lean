import Reckon.Compiler
import Reckon.Proofs.Call.Resolve
import Reckon.Proofs.Standard
import Reckon.Proofs.Term.Meaning

/-!
# Kinds are sound

If the functions of a catalog give values of the kinds that they declare, then every value has the
kind that typing inferred for it, and no function is ever run on arguments that do not fit the shape
of its own overload.  The second part is about every function that the jobs of a term come to run,
also when a later one fails.
-/

namespace Reckon

variable {D : Domain}

/-! ## Honest catalogs -/

/-- Whatever the function of the overload gives has the kind that the overload declares. -/
def Overload.Honest (o : Overload D) : Prop :=
  ∀ vs site v, o.run vs site = .ok v → D.kindOf v = o.output

namespace Catalog

/-- Everything that can be called. -/
def callables (c : Catalog D) : List (Callable D) := c.functions ++ c.operators ++ c.unaries

def Honest (c : Catalog D) : Prop := ∀ f ∈ c.callables, ∀ o ∈ f.overloads, o.Honest

theorem mem_callables {c : Catalog D} {sort : CallSort} {name : String} {f : Callable D}
    (h : c.callable? sort name = some f) : f ∈ c.callables := by
  rw [callables, List.mem_append, List.mem_append]
  cases sort with
  | function =>
    refine .inl (.inl ?_)
    rw [callable?, function?, Option.or_eq_some_iff] at h
    obtain h | ⟨-, h⟩ := h <;> exact List.mem_of_find?_eq_some h
  | operator => exact .inl (.inr (List.mem_of_find?_eq_some h))
  | unary => exact .inr (List.mem_of_find?_eq_some h)

end Catalog

/-! ## Resolution -/

theorem Callable.firstFitting_accepts {lenient : Bool} {kinds : List D.Kind} {index : Nat}
    {os : List (Overload D)} {choice : Choice D}
    (h : firstFitting lenient kinds index os = some choice) :
    choice.overload ∈ os ∧ choice.overload.accepts lenient kinds := by
  induction os generalizing index with
  | nil => cases h
  | cons o os ih =>
    rw [firstFitting] at h
    split at h
    · rename_i haccepts
      cases h
      exact ⟨List.mem_cons_self, haccepts⟩
    · obtain ⟨hmem, haccepts⟩ := ih h
      exact ⟨List.mem_cons_of_mem o hmem, haccepts⟩

theorem Callable.resolve_accepts {c : Callable D} {arguments : List (Argument D.Kind)}
    {lenient : Bool} {choice : Choice D} (h : c.resolve arguments lenient = .ok choice) :
    choice.overload ∈ c.overloads ∧
      choice.overload.accepts lenient (arguments.map (·.kind)) := by
  rw [resolve] at h
  split at h
  · cases h
  · rename_i found hfound
    have hchoice : found = choice := by
      split at h
      · cases h
      · split at h
        · cases h
        · split at h
          · cases h
          · exact Except.ok.inj h
    rw [← hchoice]
    exact firstFitting_accepts hfound

namespace Typing

/-- Arguments of these kinds fit the overload, as they are or by standing for others. -/
def Takes (s : Typing D) (o : Overload D) (kinds : List D.Kind) : Prop :=
  o.accepts false kinds ∨ s.lenient ∧ o.accepts true kinds

variable {s : Typing D} {b : Typed D}

theorem choose_takes {c : Callable D} {arguments : List (Argument D.Kind)} {choice : Choice D}
    (h : s.choose c arguments = .ok choice) :
    choice.overload ∈ c.overloads ∧ s.Takes choice.overload (arguments.map (·.kind)) := by
  rw [choose] at h
  split at h
  · rename_i hstrict
    cases h
    obtain ⟨hmem, haccepts⟩ := Callable.resolve_accepts hstrict
    exact ⟨hmem, .inl haccepts⟩
  · split at h
    · rename_i hretry
      obtain ⟨hmem, haccepts⟩ := Callable.resolve_accepts h
      exact ⟨hmem, .inr ⟨(Bool.and_eq_true _ _ ▸ hretry).2, haccepts⟩⟩
    · cases h

theorem kinds_argumentsOf {operands : List Term} {typed : List (Typed D)}
    (h : operands.length = typed.length) :
    (argumentsOf operands typed).map (·.kind) = typed.map (·.kind) := by
  have hsnd : (operands.zip typed).map Prod.snd = typed := List.map_snd_zip (Nat.le_of_eq h.symm)
  rw [argumentsOf, List.map_map]
  calc (operands.zip typed).map _ = ((operands.zip typed).map Prod.snd).map (·.kind) := by
        rw [List.map_map]; rfl
    _ = typed.map (·.kind) := by rw [hsnd]

/-- The overload of a bound call stands in the catalog and takes the kinds of the operands. -/
theorem Binds.takes {sort : CallSort} {tree : Tree} {operands : List Term} {callable : Callable D}
    {typed : List (Typed D)} {choice : Choice D}
    (h : s.Binds sort tree operands b callable typed choice) :
    callable ∈ s.catalog.callables ∧ choice.overload ∈ callable.overloads ∧
      s.Takes choice.overload (typed.map (·.kind)) := by
  obtain ⟨hmem, htakes⟩ := choose_takes h.chosen
  rw [kinds_argumentsOf h.bound.length_eq] at htakes
  exact ⟨Catalog.mem_callables h.declared, hmem, htakes⟩

/-! ## Values -/

variable {env : Environment D}

theorem kindOf_runCall {tree : Tree} {o : Overload D} {vs : List D.Value} {v : D.Value}
    (ho : o.Honest) (h : Bound.runCall tree o vs = .ok v) : D.kindOf v = o.output := by
  rw [Bound.runCall] at h
  split at h
  · rename_i w hrun
    rw [← Except.ok.inj h]
    exact ho _ _ _ hrun
  · cases h

mutual

/-- A value has the kind that was inferred. -/
theorem kindOf_eval (hs : s.kindOf = env.kindOf?) (hc : s.catalog.Honest) :
    ∀ (t : Term) (b : Typed D), s.bind t = .ok b →
      ∀ v, b.bound.eval env = .ok v → D.kindOf v = b.kind
  | .literal t, b, h, v, hv => by
    obtain ⟨w, -, rfl⟩ := bind_literal_ok h
    rw [← Except.ok.inj hv]
  | .name t, b, h, v, hv => by
    obtain ⟨kind, hkind, rfl⟩ := bind_name_ok h
    rw [hs, OrderedMap.kindOf?] at hkind
    rw [Bound.eval] at hv
    obtain ⟨w, hw, hkind⟩ := Option.map_eq_some_iff.mp hkind
    rw [hw] at hv
    rw [← Except.ok.inj hv, hkind]
  | .absent _, _, h, _, _ => by simp [bind] at h
  | .stray _, _, h, _, _ => by simp [bind] at h
  | .alien _, _, h, _, _ => by simp [bind] at h
  | .call sort tree operands, b, h, v, hv => by
    obtain ⟨callable, typed, choice, hcall⟩ := bind_call_ok h
    obtain ⟨hcallable, hmem, -⟩ := hcall.takes
    rw [hcall.eq, Bound.eval] at hv
    rw [hcall.eq]
    split at hv
    · exact kindOf_runCall (hc callable hcallable _ hmem) hv
    · cases hv

theorem kindOf_evalAll (hs : s.kindOf = env.kindOf?) (hc : s.catalog.Honest) :
    ∀ (ts : List Term) (bs : List (Typed D)),
      List.Forall₂ (fun t b => s.bind t = .ok b) ts bs →
      ∀ vs, Bound.evalAll env (bs.map (·.bound)) = .ok vs → vs.map D.kindOf = bs.map (·.kind)
  | [], _, .nil, vs, hvs => by
    rw [← Except.ok.inj hvs]
    rfl
  | t :: ts, b :: bs, .cons ht hts, vs, hvs => by
    rw [List.map_cons, Bound.evalAll] at hvs
    split at hvs
    · rename_i v hv
      split at hvs
      · rename_i rest hrest
        rw [← Except.ok.inj hvs, List.map_cons, List.map_cons,
          kindOf_eval hs hc t b ht v hv, kindOf_evalAll hs hc ts bs hts rest hrest]
      · cases hvs
    · cases hvs

end

end Typing

/-! ## Runs of functions -/

variable {s : Typing D} {env : Environment D} {table : CallTable D} {o : Overload D}
  {vs : List D.Value}

/-- Some of the jobs `js` comes to run the function of `o` on `vs`: the jobs before it are done, its
overload is `o`, and its arguments are taken. -/
def Invokes (env : Environment D) (table : CallTable D) (slots : Slots D) (js : List Job)
    (o : Overload D) (vs : List D.Value) : Prop :=
  ∃ before sort tree operands places after held rest,
    js = before ++ ⟨.call sort tree operands, places⟩ :: after ∧
    runJobs env table slots before = .ok held ∧ table[held.size]?.join = some o ∧
    held.takeAll places = .ok (vs, rest)

theorem Invokes.append {slots : Slots D} {js ks : List Job}
    (h : Invokes env table slots (js ++ ks) o vs) :
    Invokes env table slots js o vs ∨
      ∃ held, runJobs env table slots js = .ok held ∧ Invokes env table held ks o vs := by
  obtain ⟨before, sort, tree, operands, places, after, held, rest, hsplit, hrun, ho, htake⟩ := h
  obtain ⟨more, hbefore, hks⟩ | ⟨more, hjs, hafter⟩ := List.append_eq_append_iff.mp hsplit
  · -- the jobs `js` are done before the call
    rw [hbefore, runJobs_append] at hrun
    cases hheld : runJobs env table slots js with
    | error fault =>
      rw [hheld] at hrun
      cases hrun
    | ok held' =>
      rw [hheld] at hrun
      exact .inr ⟨held', rfl, more, sort, tree, operands, places, after, held, rest, hks, hrun,
        ho, htake⟩
  · cases more with
    | nil =>
      rw [List.append_nil] at hjs
      rw [← hjs] at hrun
      exact .inr ⟨held, hrun, [], sort, tree, operands, places, after, held, rest,
        by simpa using hafter.symm, rfl, ho, htake⟩
    | cons job more =>
      rw [List.cons_append] at hafter
      obtain ⟨rfl, rfl⟩ := List.cons.inj hafter
      exact .inl ⟨before, sort, tree, operands, places, more, held, rest, hjs, hrun, ho, htake⟩

theorem Invokes.singleton {slots : Slots D} {job : Job}
    (h : Invokes env table slots [job] o vs) :
    table[slots.size]?.join = some o ∧ (∃ rest, slots.takeAll job.places = .ok (vs, rest)) ∧
      ∃ sort tree operands, job.node = .call sort tree operands := by
  obtain ⟨before, sort, tree, operands, places, after, held, rest, hsplit, hrun, ho, htake⟩ := h
  cases before with
  | nil =>
    obtain ⟨rfl, -⟩ := List.cons.inj hsplit
    cases hrun
    exact ⟨ho, ⟨rest, htake⟩, sort, tree, operands, rfl⟩
  | cons job' before =>
    have hlen := congrArg List.length hsplit
    simp at hlen

theorem not_invokes_nil (slots : Slots D) : ¬ Invokes env table slots [] o vs := by
  rintro ⟨before, sort, tree, operands, places, after, held, rest, hsplit, -⟩
  cases before <;> cases hsplit

/-- The values that a call takes are those that its operands evaluate to. -/
theorem invokes_call {held : List (Option D.Value)} {sort : CallSort} {tree : Tree}
    {operands : List Term} {typed : List (Typed D)} {overload : Overload D}
    (h : List.Forall₂ (fun t b => s.bind t = .ok b) operands typed)
    (htable : table.Has held.length (Bound.callsAll (typed.map (·.bound)) ++ [some overload]))
    (hinvokes : Invokes env table held.toArray
      ((Term.call sort tree operands).jobs held.length) o vs) :
    Invokes env table held.toArray (Term.jobsAll held.length operands) o vs ∨
      o = overload ∧ Bound.evalAll env (typed.map (·.bound)) = .ok vs := by
  rw [Term.jobs] at hinvokes
  obtain hoperands | ⟨slots, hrun, hlast⟩ := hinvokes.append
  · exact .inl hoperands
  · right
    obtain ⟨ho, ⟨rest, htake⟩, -⟩ := hlast.singleton
    have hruns := @run_jobsAll _ s env table held operands typed h htable.left
    cases heval : Bound.evalAll env (typed.map (·.bound)) with
    | error fault =>
      rw [hruns.2 fault heval] at hrun
      cases hrun
    | ok ws =>
      obtain ⟨filled, left, hfilled, -, hrun', htake'⟩ := hruns.1 ws heval
      rw [hrun'] at hrun
      cases hrun
      have hsize : (held ++ filled).toArray.size =
          held.length + (Bound.callsAll (typed.map (·.bound))).length := by
        rw [← Term.length_jobsAll held.length operands typed h]
        simp [hfilled]
      rw [hsize, htable.right.entry] at ho
      have hvalues := htake' held rfl
      dsimp only at htake
      rw [htake] at hvalues
      cases hvalues
      exact ⟨(Option.some.inj ho).symm, rfl⟩

mutual

/-- Every function that the jobs of a term come to run takes its arguments. -/
theorem takes_of_invokes (hs : s.kindOf = env.kindOf?) (hc : s.catalog.Honest)
    (held : List (Option D.Value)) : ∀ (t : Term) (b : Typed D), s.bind t = .ok b →
    table.Has held.length b.bound.calls →
    Invokes env table held.toArray (t.jobs held.length) o vs → s.Takes o (vs.map D.kindOf)
  | .literal t, b, h, _, hinvokes => by
    obtain ⟨-, -, sort, tree, operands, hnode⟩ := hinvokes.singleton
    cases hnode
  | .name t, b, h, _, hinvokes => by
    obtain ⟨-, -, sort, tree, operands, hnode⟩ := hinvokes.singleton
    cases hnode
  | .absent _, _, h, _, _ => by simp [Typing.bind] at h
  | .stray _, _, h, _, _ => by simp [Typing.bind] at h
  | .alien _, _, h, _, _ => by simp [Typing.bind] at h
  | .call sort tree operands, b, h, htable, hinvokes => by
    obtain ⟨callable, typed, choice, hcall⟩ := Typing.bind_call_ok h
    rw [hcall.eq, Bound.calls] at htable
    obtain hoperands | ⟨rfl, hvs⟩ := invokes_call hcall.bound htable hinvokes
    · exact takes_of_invokesAll hs hc held operands typed hcall.bound htable.left hoperands
    · rw [Typing.kindOf_evalAll hs hc operands typed hcall.bound vs hvs]
      exact hcall.takes.2.2

theorem takes_of_invokesAll (hs : s.kindOf = env.kindOf?) (hc : s.catalog.Honest)
    (held : List (Option D.Value)) : ∀ (ts : List Term) (bs : List (Typed D)),
    List.Forall₂ (fun t b => s.bind t = .ok b) ts bs →
    table.Has held.length (Bound.callsAll (bs.map (·.bound))) →
    Invokes env table held.toArray (Term.jobsAll held.length ts) o vs →
    s.Takes o (vs.map D.kindOf)
  | [], _, .nil, _, hinvokes => absurd hinvokes (not_invokes_nil _)
  | t :: ts, b :: bs, .cons ht hts, htable, hinvokes => by
    rw [List.map_cons, Bound.callsAll] at htable
    rw [Term.jobsAll] at hinvokes
    obtain hfirst | ⟨slots, hrun, hrest⟩ := hinvokes.append
    · exact takes_of_invokes hs hc held t b ht htable.left hfirst
    · have hruns := @run_jobs _ s env table held t b ht htable.left
      cases heval : b.bound.eval env with
      | error fault =>
        rw [hruns.2 fault heval] at hrun
        cases hrun
      | ok v =>
        obtain ⟨inner, hinner, hrun'⟩ := hruns.1 v heval
        rw [hrun'] at hrun
        cases hrun
        have hlen : (held ++ (inner ++ [some v])).length =
            held.length + (t.jobs held.length).length := by simp; omega
        rw [← hlen] at hrest
        refine takes_of_invokesAll hs hc _ ts bs hts ?_ hrest
        rw [hlen, Term.length_jobs held.length t b ht]
        exact htable.right

end

/-! ## Compiled expressions -/

/-- The diagnostics that a failure tells. -/
def Failure.diagnostics : Failure → List Diagnostic
  | parse diagnostics _ => diagnostics
  | evaluation diagnostics _ => diagnostics
  | io | config _ => []

namespace Compiled

/-- Evaluating the expression comes to run the function of `o` on `vs`. -/
def Invokes (e : Compiled D) (env : Environment D) (o : Overload D) (vs : List D.Value) : Prop :=
  ∃ tree b, e.check = .ok tree ∧ e.bind tree env.kindOf? = .ok b ∧
    Reckon.Invokes env b.bound.callTable #[]
      ((Term.ofTree e.compiler.dialect tree).schedule #[]).toList o vs

variable {e : Compiled D}

/-- A value is what the bound term of a faultless tree evaluates to. -/
theorem evaluate_ok {v : D.Value} (h : e.evaluate env = .ok v) : ∃ tree b,
    e.check = .ok tree ∧ e.bind tree env.kindOf? = .ok b ∧ b.bound.eval env = .ok v := by
  rw [evaluate] at h
  cases hcheck : e.check with
  | error failure =>
    rw [hcheck] at h
    cases h
  | ok tree =>
    rw [hcheck] at h
    dsimp only at h
    cases hb : e.bind tree env.kindOf? with
    | error faults =>
      rw [hb] at h
      cases h
    | ok b =>
      rw [hb] at h
      dsimp only at h
      rw [Term.compute_eq_eval env hb] at h
      cases heval : b.bound.eval env with
      | error fault =>
        rw [heval] at h
        cases h
      | ok w =>
        rw [heval] at h
        exact ⟨tree, b, rfl, hb, heval.trans (congrArg _ (Except.ok.inj h))⟩

theorem inferKind_ok {tree : Tree} {b : Typed D} {kindOf : String → Option D.Kind}
    (hcheck : e.check = .ok tree) (hb : e.bind tree kindOf = .ok b) :
    e.inferKind kindOf = .ok b.kind := by
  rw [inferKind, hcheck]
  dsimp only
  rw [hb]

/-- Evaluation fails where typing does, with the same diagnostics. -/
theorem evaluate_error {failure : Failure} (h : e.inferKind env.kindOf? = .error failure) :
    ∃ failure', e.evaluate env = .error failure' ∧
      failure'.diagnostics = failure.diagnostics := by
  rw [inferKind] at h
  rw [evaluate]
  cases hcheck : e.check with
  | error failure' =>
    rw [hcheck] at h
    exact ⟨failure', rfl, congrArg Failure.diagnostics (Except.error.inj h)⟩
  | ok tree =>
    rw [hcheck] at h
    dsimp only at h ⊢
    cases hb : e.bind tree env.kindOf? with
    | error faults =>
      rw [hb] at h
      rw [← Except.error.inj h]
      exact ⟨_, rfl, rfl⟩
    | ok b =>
      rw [hb] at h
      cases h

/-- **Kinds are sound.**  A value has the kind that is inferred from the kinds of the variables.
What cannot be typed cannot be evaluated, and the same is told about it.  A function is run only
on arguments whose kinds fit the shape of its overload, or fit it as kinds that may stand for
others, whether or not the evaluation succeeds. -/
theorem kind_sound (e : Compiled D) (env : Environment D)
    (hc : e.compiler.catalog.Honest) :
    (∀ v, e.evaluate env = .ok v → e.inferKind env.kindOf? = .ok (D.kindOf v)) ∧
    (∀ failure, e.inferKind env.kindOf? = .error failure →
      ∃ failure', e.evaluate env = .error failure' ∧
        failure'.diagnostics = failure.diagnostics) ∧
    ∀ o vs, e.Invokes env o vs → o.Fits false (vs.map D.kindOf) ∨
      e.compiler.lenient ∧ o.Fits true (vs.map D.kindOf) := by
  refine ⟨?_, fun failure h => evaluate_error h, ?_⟩
  · intro v hv
    obtain ⟨tree, b, hcheck, hb, heval⟩ := evaluate_ok hv
    rw [inferKind_ok hcheck hb, Typing.kindOf_eval rfl hc _ b hb v heval]
  · rintro o vs ⟨tree, b, -, hb, hinvokes⟩
    rw [Term.toList_schedule] at hinvokes
    simp only [← Overload.accepts_iff_fits]
    refine takes_of_invokes rfl hc [] _ b hb ?_ hinvokes
    exact ⟨[], by simp [Bound.callTable, Bound.toList_addCalls]⟩

end Compiled

/-! ## Whole numbers -/

namespace Scalar

theorem honest_integerOverload (count : Nat) (op : List Int → Except String Int) :
    (integerOverload count op).Honest := by
  intro vs site v h
  simp only [integerOverload] at h
  split at h
  · rename_i is _
    cases hop : op is with
    | error reason =>
      rw [hop] at h
      cases h
    | ok i =>
      rw [hop] at h
      rw [← Except.ok.inj h]
      rfl
  · cases h

theorem honest_sums : sums.Honest := by
  intro f hf o ho
  simp only [Catalog.callables, sums, List.nil_append, List.cons_append, List.mem_cons,
    List.not_mem_nil, or_false] at hf
  obtain rfl | rfl := hf <;> rw [List.mem_singleton.mp ho] <;> exact honest_integerOverload _ _

/-- A compiler for sums. -/
def sumCompiler : Compiler scalars :=
  Plan.build { catalog := sums, dialect := .standard, checks := [.parentheses, .operands] }

end Scalar

/-- The sum `2 + x` has the kind of its value. -/
theorem Compiled.kind_of_sum :
    (Scalar.sumCompiler.compile "2 + x").compiler.catalog.Honest ∧
    (Scalar.sumCompiler.compile "2 + x").evaluate Scalar.three = .ok (Scalar.int 5) ∧
    (Scalar.sumCompiler.compile "2 + x").inferKind (OrderedMap.kindOf? Scalar.three) =
      .ok ScalarKind.int := by
  have he : ∃ e, Scalar.sumCompiler.compile "2 + x" = e ∧
      e.compiler.catalog = Scalar.sums ∧ e.evaluate Scalar.three = .ok (Scalar.int 5) :=
    ⟨_, by cbv, rfl, rfl⟩
  obtain ⟨e, rfl, hcatalog, hv⟩ := he
  have hc : (Scalar.sumCompiler.compile "2 + x").compiler.catalog.Honest :=
    hcatalog ▸ Scalar.honest_sums
  exact ⟨hc, hv, (Compiled.kind_sound _ _ hc).1 _ hv⟩

end Reckon
