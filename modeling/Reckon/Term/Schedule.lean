import Reckon.Term.Evaluation

/-!
# Schedules

A term is evaluated as a list of jobs, one for every node, in postfix order.  Every job puts its
value into the next slot; a call first takes the values of its operands out of their slots, so that
no value is held longer than it is needed.  The overloads that binding chose stand in a table over
the same slots.
-/

namespace Reckon

/-- Where the value of an operand is; `owner` is blamed when it is not there. -/
structure Place where
  slot : Nat
  owner : Option Token

/-- A node to be computed, with the places of its operands. -/
structure Job where
  node : Term
  places : List Place

namespace Term

/-- The token that is blamed when the value of a term is not there. -/
def owner : Term → Option Token
  | literal t | name t | stray t | alien t => some t
  | absent owner => owner
  | call _ tree _ => some tree.token

mutual

/-- Adds the jobs of a term behind other jobs; the value of the term comes into the last slot. -/
def schedule (jobs : Array Job) : Term → Array Job
  | .call sort tree operands =>
    let (jobs, places) := scheduleAll jobs operands
    jobs.push ⟨.call sort tree operands, places⟩
  | .literal t => jobs.push ⟨.literal t, []⟩
  | .name t => jobs.push ⟨.name t, []⟩
  | .absent owner => jobs.push ⟨.absent owner, []⟩
  | .stray t => jobs.push ⟨.stray t, []⟩
  | .alien t => jobs.push ⟨.alien t, []⟩

/-- Adds the jobs of several terms, and gives the places of their values. -/
def scheduleAll (jobs : Array Job) : List Term → Array Job × List Place
  | [] => (jobs, [])
  | t :: ts =>
    let jobs := schedule jobs t
    let (all, places) := scheduleAll jobs ts
    (all, ⟨jobs.size - 1, t.owner⟩ :: places)

end

end Term

variable {D : Domain}

/-- The overloads of calls by slot. -/
abbrev CallTable (D : Domain) := Array (Option (Overload D))

namespace Bound

mutual

/-- Adds the overloads of a bound term to a table. -/
def addCalls (table : CallTable D) : Bound D → CallTable D
  | .value _ => table.push none
  | .name _ => table.push none
  | .call _ overload operands => (addAllCalls table operands).push (some overload)

/-- Adds the overloads of several bound terms to a table. -/
def addAllCalls (table : CallTable D) : List (Bound D) → CallTable D
  | [] => table
  | b :: bs => addAllCalls (addCalls table b) bs

end

/-- The overloads of a bound term. -/
def callTable (b : Bound D) : CallTable D := b.addCalls #[]

end Bound

/-- The values computed so far; a slot is empty when its value has been taken. -/
abbrev Slots (D : Domain) := Array (Option D.Value)

namespace Slots

/-- Takes the value out of a place. -/
def take (slots : Slots D) (place : Place) : Except EvalFault (D.Value × Slots D) :=
  match slots[place.slot]? with
  | some (some v) => .ok (v, slots.setIfInBounds place.slot none)
  | _ => .error (.missing place.owner)

/-- Takes the values out of several places, in order. -/
def takeAll (slots : Slots D) : List Place → Except EvalFault (List D.Value × Slots D)
  | [] => .ok ([], slots)
  | p :: ps =>
    match slots.take p with
    | .error fault => .error fault
    | .ok (v, slots) =>
      match takeAll slots ps with
      | .error fault => .error fault
      | .ok (vs, slots) => .ok (v :: vs, slots)

end Slots

namespace Job

/-- Takes the operands of a call and runs its overload. -/
def runCall (overload? : Option (Overload D)) (slots : Slots D) (tree : Tree)
    (places : List Place) : Except EvalFault (Slots D) :=
  match overload? with
  | none => .error (.unresolved tree.token)
  | some overload =>
    match slots.takeAll places with
    | .error fault => .error fault
    | .ok (values, slots) =>
      match Bound.runCall tree overload values with
      | .error fault => .error fault
      | .ok v => .ok (slots.push (some v))

/-- Does one job; its slot is the next one. -/
def run (env : Environment D) (table : CallTable D) (slots : Slots D) (job : Job) :
    Except EvalFault (Slots D) :=
  match job.node with
  | .literal t =>
    match D.readLiteral t.text with
    | some v => .ok (slots.push (some v))
    | none => .error (.invalidLiteral t)
  | .name t =>
    match env.get? t.text with
    | some v => .ok (slots.push (some v))
    | none => .error (.unbound t)
  | .absent owner => .error (.missing owner)
  | .stray t => .error (.orphanSeparator t)
  | .alien t => .error (.unresolved t)
  | .call _ tree _ => runCall table[slots.size]?.join slots tree job.places

end Job

/-- The value of a term, computed job by job with the overloads of a table. -/
def Term.compute (env : Environment D) (table : CallTable D) (term : Term) :
    Except EvalFault D.Value :=
  match (term.schedule #[]).foldlM (Job.run env table) #[] with
  | .error fault => .error fault
  | .ok slots =>
    match slots.back? with
    | some (some v) => .ok v
    | _ => .error (.missing term.owner)

end Reckon
