import Reckon.Proofs.Term.Binding
import Reckon.Term.Schedule

/-!
# Running a schedule

Running the jobs of a term with the overloads that binding chose computes what the bound term
evaluates to.  Slots are emptied while the jobs run, so the statement for several terms says what
taking their values leaves behind, whatever stands in front of them.
-/

namespace Reckon

variable {D : Domain} {s : Typing D} {env : Environment D} {table : CallTable D}

/-! ## Slots -/

namespace Slots

theorem take_toArray (front back : List (Option D.Value)) (v : D.Value) (owner : Option Token) :
    take (front ++ some v :: back).toArray ⟨front.length, owner⟩ =
      .ok (v, (front ++ none :: back).toArray) := by
  have hset : (front ++ some v :: back).set front.length none = front ++ none :: back := by simp
  simp [take, hset]

theorem takeAll_cons {slots rest rest' : Slots D} {p : Place} {ps : List Place} {v : D.Value}
    {vs : List D.Value} (h : slots.take p = .ok (v, rest))
    (h' : rest.takeAll ps = .ok (vs, rest')) : slots.takeAll (p :: ps) = .ok (v :: vs, rest') := by
  simp only [takeAll, h, h']

end Slots

/-! ## Jobs and overloads as lists -/

namespace Term

mutual

/-- The jobs of a term whose first job has the slot `first`. -/
def jobs (first : Nat) : Term → List Job
  | .call sort tree operands =>
    jobsAll first operands ++ [⟨.call sort tree operands, placesAll first operands⟩]
  | .literal t => [⟨.literal t, []⟩]
  | .name t => [⟨.name t, []⟩]
  | .absent owner => [⟨.absent owner, []⟩]
  | .stray t => [⟨.stray t, []⟩]
  | .alien t => [⟨.alien t, []⟩]

/-- The jobs of several terms. -/
def jobsAll (first : Nat) : List Term → List Job
  | [] => []
  | t :: ts => jobs first t ++ jobsAll (first + (jobs first t).length) ts

/-- The places of the values of several terms. -/
def placesAll (first : Nat) : List Term → List Place
  | [] => []
  | t :: ts =>
    ⟨first + (jobs first t).length - 1, t.owner⟩ :: placesAll (first + (jobs first t).length) ts

end

mutual

theorem toList_schedule (done : Array Job) :
    ∀ t : Term, (schedule done t).toList = done.toList ++ t.jobs done.size
  | .call sort tree operands => by
    obtain ⟨hjobs, hplaces⟩ := toList_scheduleAll done operands
    simp [schedule, jobs, hjobs, hplaces]
  | .literal t => by simp [schedule, jobs]
  | .name t => by simp [schedule, jobs]
  | .absent owner => by simp [schedule, jobs]
  | .stray t => by simp [schedule, jobs]
  | .alien t => by simp [schedule, jobs]

theorem toList_scheduleAll (done : Array Job) : ∀ ts : List Term,
    (scheduleAll done ts).1.toList = done.toList ++ jobsAll done.size ts ∧
      (scheduleAll done ts).2 = placesAll done.size ts
  | [] => by simp [scheduleAll, jobsAll, placesAll]
  | t :: ts => by
    have ht := toList_schedule done t
    have hsize : (schedule done t).size = done.size + (t.jobs done.size).length := by
      rw [← Array.length_toList, ht, List.length_append, Array.length_toList]
    obtain ⟨hjobs, hplaces⟩ := toList_scheduleAll (schedule done t) ts
    simp [scheduleAll, jobsAll, placesAll, hjobs, hplaces, ht, hsize]

end

end Term

namespace Bound

mutual

/-- The overloads of a bound term, node by node. -/
def calls : Bound D → List (Option (Overload D))
  | .value _ => [none]
  | .name _ => [none]
  | .call _ overload operands => callsAll operands ++ [some overload]

/-- The overloads of several bound terms. -/
def callsAll : List (Bound D) → List (Option (Overload D))
  | [] => []
  | b :: bs => calls b ++ callsAll bs

end

mutual

theorem toList_addCalls (table : CallTable D) :
    ∀ b : Bound D, (addCalls table b).toList = table.toList ++ b.calls
  | .value v => by simp [addCalls, calls]
  | .name t => by simp [addCalls, calls]
  | .call tree overload operands => by
    simp [addCalls, calls, toList_addAllCalls table operands]

theorem toList_addAllCalls (table : CallTable D) :
    ∀ bs : List (Bound D), (addAllCalls table bs).toList = table.toList ++ callsAll bs
  | [] => by simp [addAllCalls, callsAll]
  | b :: bs => by
    simp [addAllCalls, callsAll, toList_addAllCalls (addCalls table b) bs,
      toList_addCalls table b]

end

end Bound

mutual

/-- A bound term has an entry for every job. -/
theorem Term.length_jobs (first : Nat) : ∀ (t : Term) (b : Typed D), s.bind t = .ok b →
    (t.jobs first).length = b.bound.calls.length
  | .call sort tree operands, b, h => by
    obtain ⟨callable, typed, choice, hcall⟩ := Typing.bind_call_ok h
    have hlength := Term.length_jobsAll first operands typed hcall.bound
    rw [hcall.eq, Term.jobs, Bound.calls, List.length_append, List.length_append, hlength]
    rfl
  | .literal t, b, h => by
    obtain ⟨v, -, rfl⟩ := Typing.bind_literal_ok h
    rfl
  | .name t, b, h => by
    obtain ⟨kind, -, rfl⟩ := Typing.bind_name_ok h
    rfl
  | .absent _, _, h => by simp [Typing.bind] at h
  | .stray _, _, h => by simp [Typing.bind] at h
  | .alien _, _, h => by simp [Typing.bind] at h

theorem Term.length_jobsAll (first : Nat) : ∀ (ts : List Term) (bs : List (Typed D)),
    List.Forall₂ (fun t b => s.bind t = .ok b) ts bs →
    (Term.jobsAll first ts).length = (Bound.callsAll (bs.map (·.bound))).length
  | [], _, .nil => rfl
  | t :: ts, b :: bs, .cons ht hts => by
    have hlength := Term.length_jobs first t b ht
    have hlengths := Term.length_jobsAll (first + (t.jobs first).length) ts bs hts
    rw [Term.jobsAll, List.map_cons, Bound.callsAll, List.length_append, List.length_append,
      hlength, ← hlengths, ← hlength]

end

/-! ## Parts of the table -/

/-- From the slot `first` on, the table holds these overloads. -/
def CallTable.Has (table : CallTable D) (first : Nat) (calls : List (Option (Overload D))) :
    Prop :=
  calls <+: table.toList.drop first

namespace CallTable.Has

variable {first : Nat} {calls more : List (Option (Overload D))}

theorem left (h : table.Has first (calls ++ more)) : table.Has first calls :=
  (List.prefix_append calls more).trans h

theorem right (h : table.Has first (calls ++ more)) : table.Has (first + calls.length) more := by
  obtain ⟨after, h⟩ := h
  refine ⟨after, ?_⟩
  rw [← List.drop_drop, ← h, List.append_assoc, List.drop_left]

theorem entry {overload : Overload D} (h : table.Has first [some overload]) :
    table[first]?.join = some overload := by
  obtain ⟨after, h⟩ := h
  have hentry : (table.toList.drop first)[0]? = some (some overload) := by rw [← h]; rfl
  rw [List.getElem?_drop, Nat.add_zero, Array.getElem?_toList] at hentry
  rw [hentry]
  rfl

end CallTable.Has

/-! ## Running -/

/-- Does some more jobs. -/
def runJobs (env : Environment D) (table : CallTable D) (slots : Slots D) (js : List Job) :
    Except EvalFault (Slots D) := js.foldlM (Job.run env table) slots

theorem runJobs_append (slots : Slots D) (js ks : List Job) :
    runJobs env table slots (js ++ ks) =
      (runJobs env table slots js).bind fun slots => runJobs env table slots ks :=
  List.foldlM_append

theorem runJobs_singleton (slots : Slots D) (j : Job) :
    runJobs env table slots [j] = j.run env table slots :=
  bind_pure _

variable {v : D.Value} {vs : List D.Value} {held : List (Option D.Value)} {fault : EvalFault}

/-- Behind what was held before, the jobs `js` fill slots of which the last one holds `v`. -/
def Fills (env : Environment D) (table : CallTable D) (held : List (Option D.Value))
    (js : List Job) (v : D.Value) : Prop :=
  ∃ inner : List (Option D.Value), inner.length + 1 = js.length ∧
    runJobs env table held.toArray js = .ok (held ++ (inner ++ [some v])).toArray

/-- Behind what was held before, the jobs `js` fill slots from which `vs` can be taken once,
whatever is held before them then. -/
def FillsAll (env : Environment D) (table : CallTable D) (held : List (Option D.Value))
    (js : List Job) (places : List Place) (vs : List D.Value) : Prop :=
  ∃ filled left : List (Option D.Value), filled.length = js.length ∧ left.length = js.length ∧
    runJobs env table held.toArray js = .ok (held ++ filled).toArray ∧
    ∀ front : List (Option D.Value), front.length = held.length →
      Slots.takeAll (front ++ filled).toArray places = .ok (vs, (front ++ left).toArray)

theorem fills_push {j : Job}
    (h : j.run env table held.toArray = .ok (held.toArray.push (some v))) :
    Fills env table held [j] v :=
  ⟨[], rfl, by simp [runJobs_singleton, h]⟩

theorem FillsAll.nil : FillsAll env table held [] [] [] :=
  ⟨[], [], rfl, rfl, by simp [runJobs, pure, Except.pure], fun front _ => by
    simp [Slots.takeAll]⟩

theorem FillsAll.cons {js ks : List Job} {places : List Place} {owner : Option Token}
    (h : Fills env table held js v)
    (h' : ∀ held' : List (Option D.Value), held'.length = held.length + js.length →
      FillsAll env table held' ks places vs) :
    FillsAll env table held (js ++ ks) (⟨held.length + js.length - 1, owner⟩ :: places)
      (v :: vs) := by
  obtain ⟨inner, hinner, hrun⟩ := h
  have hlen : (held ++ (inner ++ [some v])).length = held.length + js.length := by simp; omega
  obtain ⟨filled, left, hfilled, hleft, hrun', htake⟩ := h' _ hlen
  refine ⟨inner ++ [some v] ++ filled, inner ++ [none] ++ left, ?_, ?_, ?_, ?_⟩
  · simp
    omega
  · simp
    omega
  · rw [runJobs_append, hrun, Except.bind, hrun']
    simp
  · intro front hfront
    have hslot : held.length + js.length - 1 = (front ++ inner).length := by simp; omega
    have hfirst := Slots.take_toArray (front ++ inner) filled v owner
    have hrest := htake (front ++ inner ++ [none]) (by simp; omega)
    rw [hslot]
    exact Slots.takeAll_cons (by simpa using hfirst) (by simpa using hrest)

variable {sort : CallSort} {tree : Tree} {operands : List Term}

/-- A call takes the values of its operands and puts its own value behind what they left. -/
theorem FillsAll.run {overload : Overload D} {js : List Job} {places : List Place}
    (h : FillsAll env table held js places vs)
    (ho : table[held.length + js.length]?.join = some overload) :
    (∀ v, Bound.runCall tree overload vs = .ok v →
      Fills env table held (js ++ [⟨.call sort tree operands, places⟩]) v) ∧
    ∀ fault, Bound.runCall tree overload vs = .error fault →
      runJobs env table held.toArray (js ++ [⟨.call sort tree operands, places⟩]) =
        .error fault := by
  obtain ⟨filled, left, hfilled, hleft, hrun, htake⟩ := h
  have hsize : (held ++ filled).toArray.size = held.length + js.length := by simp [hfilled]
  have hcall : runJobs env table held.toArray (js ++ [⟨.call sort tree operands, places⟩]) =
      Job.runCall (some overload) (held ++ filled).toArray tree places := by
    rw [runJobs_append, hrun, Except.bind, runJobs_singleton, Job.run, hsize, ho]
  have htake' := htake held rfl
  constructor
  · intro v hv
    refine ⟨left, by simp [hleft], ?_⟩
    rw [hcall, Job.runCall, htake']
    simp [hv]
  · intro fault hf
    rw [hcall, Job.runCall, htake']
    simp [hf]

mutual

/-- Running the jobs of a term computes what the bound term evaluates to. -/
theorem run_jobs (held : List (Option D.Value)) : ∀ (t : Term) (b : Typed D), s.bind t = .ok b →
    table.Has held.length b.bound.calls →
    (∀ v, b.bound.eval env = .ok v → Fills env table held (t.jobs held.length) v) ∧
    ∀ fault, b.bound.eval env = .error fault →
      runJobs env table held.toArray (t.jobs held.length) = .error fault
  | .literal t, b, h, _ => by
    obtain ⟨v, hv, rfl⟩ := Typing.bind_literal_ok h
    refine ⟨fun w hw => ?_, fun fault hf => nomatch hf⟩
    rw [← Except.ok.inj hw]
    exact fills_push (by simp only [Job.run, hv])
  | .name t, b, h, _ => by
    obtain ⟨kind, -, rfl⟩ := Typing.bind_name_ok h
    rw [Term.jobs]
    show (∀ v, Bound.eval env (.name t) = _ → _) ∧ ∀ fault, Bound.eval env (.name t) = _ → _
    rw [Bound.eval]
    cases hv : env.get? t.text with
    | none =>
      refine ⟨fun w hw => (nomatch hw), fun fault hf => ?_⟩
      rw [runJobs_singleton, ← Except.error.inj hf]
      simp only [Job.run, hv]
    | some v =>
      refine ⟨fun w hw => ?_, fun fault hf => nomatch hf⟩
      rw [← Except.ok.inj hw]
      exact fills_push (by simp only [Job.run, hv])
  | .absent _, _, h, _ => by simp [Typing.bind] at h
  | .stray _, _, h, _ => by simp [Typing.bind] at h
  | .alien _, _, h, _ => by simp [Typing.bind] at h
  | .call sort tree operands, b, h, htable => by
    obtain ⟨callable, typed, choice, hcall⟩ := Typing.bind_call_ok h
    rw [hcall.eq, Bound.calls] at htable
    obtain ⟨hok, herror⟩ := run_jobsAll held operands typed hcall.bound htable.left
    have hlength := Term.length_jobsAll held.length operands typed hcall.bound
    have ho := htable.right.entry
    rw [← hlength] at ho
    rw [hcall.eq, Term.jobs, Bound.eval]
    cases hvs : Bound.evalAll env (typed.map (·.bound)) with
    | error fault =>
      refine ⟨fun w hw => (nomatch hw), fun fault' hf => ?_⟩
      rw [runJobs_append, herror fault hvs, ← Except.error.inj hf]
      rfl
    | ok vs => exact (hok vs hvs).run ho

theorem run_jobsAll (held : List (Option D.Value)) : ∀ (ts : List Term) (bs : List (Typed D)),
    List.Forall₂ (fun t b => s.bind t = .ok b) ts bs →
    table.Has held.length (Bound.callsAll (bs.map (·.bound))) →
    (∀ vs, Bound.evalAll env (bs.map (·.bound)) = .ok vs →
      FillsAll env table held (Term.jobsAll held.length ts) (Term.placesAll held.length ts) vs) ∧
    ∀ fault, Bound.evalAll env (bs.map (·.bound)) = .error fault →
      runJobs env table held.toArray (Term.jobsAll held.length ts) = .error fault
  | [], _, .nil, _ => by
    refine ⟨fun vs hvs => ?_, fun fault hf => nomatch hf⟩
    rw [← Except.ok.inj hvs]
    exact FillsAll.nil
  | t :: ts, b :: bs, .cons ht hts, htable => by
    rw [List.map_cons, Bound.callsAll] at htable
    have hlength := Term.length_jobs held.length t b ht
    have hrest : ∀ held' : List (Option D.Value),
        held'.length = held.length + (t.jobs held.length).length →
        table.Has held'.length (Bound.callsAll (bs.map (·.bound))) := by
      intro held' hlen
      rw [hlen, hlength]
      exact htable.right
    obtain ⟨hok, herror⟩ := run_jobs held t b ht htable.left
    rw [List.map_cons, Bound.evalAll, Term.jobsAll, Term.placesAll]
    cases hb : b.bound.eval env with
    | error fault =>
      refine ⟨fun vs hvs => (nomatch hvs), fun fault' hf => ?_⟩
      rw [runJobs_append, herror fault hb, ← Except.error.inj hf]
      rfl
    | ok v =>
      have hfills := hok v hb
      cases hbs : Bound.evalAll env (bs.map (·.bound)) with
      | error fault =>
        refine ⟨fun vs hvs => (nomatch hvs), fun fault' hf => ?_⟩
        obtain ⟨inner, hinner, hrun⟩ := hfills
        have hlen : (held ++ (inner ++ [some v])).length =
            held.length + (t.jobs held.length).length := by simp; omega
        have hfault := (run_jobsAll _ ts bs hts (hrest _ hlen)).2 fault hbs
        rw [hlen] at hfault
        rw [runJobs_append, hrun, Except.bind, hfault, ← Except.error.inj hf]
      | ok vs =>
        refine ⟨fun vs' hvs => ?_, fun fault hf => nomatch hf⟩
        rw [← Except.ok.inj hvs]
        refine FillsAll.cons hfills fun held' hlen => ?_
        have hall := (run_jobsAll held' ts bs hts (hrest held' hlen)).1 vs hbs
        rwa [hlen] at hall

end

/-- **Computing is evaluating.**  Job by job, a term that is bound comes to the value or the fault
that the bound term evaluates to; in particular no value is missing when it is taken, and no call
is without overload. -/
theorem Term.compute_eq_eval {t : Term} {b : Typed D} (env : Environment D)
    (h : s.bind t = .ok b) : t.compute env b.bound.callTable = b.bound.eval env := by
  have hjobs := Term.toList_schedule #[] t
  have htable : b.bound.callTable.Has 0 b.bound.calls := by
    refine ⟨[], ?_⟩
    simp [Bound.callTable, Bound.toList_addCalls]
  have hfold : (t.schedule #[]).foldlM (Job.run env b.bound.callTable) #[] =
      runJobs env b.bound.callTable #[] (t.jobs 0) := by
    rw [← Array.foldlM_toList, hjobs]
    simp [runJobs]
  have hruns : (∀ v, b.bound.eval env = .ok v →
        Fills env b.bound.callTable [] (t.jobs 0) v) ∧
      ∀ fault, b.bound.eval env = .error fault →
        runJobs env b.bound.callTable #[] (t.jobs 0) = .error fault :=
    run_jobs [] t b h htable
  obtain ⟨hok, herror⟩ := hruns
  rw [Term.compute, hfold]
  cases he : b.bound.eval env with
  | error fault => rw [herror fault he]
  | ok v =>
    obtain ⟨inner, -, hrun⟩ := hok v he
    have hrun' : runJobs env b.bound.callTable #[] (t.jobs 0) =
      .ok (inner ++ [some v]).toArray := hrun
    rw [hrun']
    simp

end Reckon
