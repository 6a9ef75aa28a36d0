import Reckon.Call.Callable
import Reckon.Diagnostic

/-!
# Overload resolution

A call takes the first overload whose shape fits the kinds of its arguments.  After that there is no
way back: the rules on argument text and the two validators accept the call or refuse it.
-/

namespace Reckon

inductive Refusal where
  /-- No shape fits; both lists are as messages show them. -/
  | noMatch (name : String) (provided : List String) (declared : List String)
  | valueNotAllowed (name : String) (index : Nat) (text : String) (allowed : List String)
  | formatNotAllowed (name : String) (index : Nat) (text : String)
  | byOverload (name reason : String)
  | byCallable (name reason : String)
deriving DecidableEq

namespace Refusal

def isNoMatch : Refusal → Bool
  | noMatch .. => true
  | _ => false

def code : Refusal → Code
  | noMatch .. => .noMatchingOverload
  | valueNotAllowed .. => .valueNotAllowed
  | formatNotAllowed .. => .formatNotAllowed
  | byOverload .. => .rejectedByOverload
  | byCallable .. => .rejectedByCallable

def message : Refusal → String
  | noMatch name provided _ =>
    let listing := Text.joinWith ", " provided
    s!"no syntax of `{name}` accepts ({listing})"
  | valueNotAllowed name index text allowed =>
    s!"argument {index + 1} of `{name}` is `{text}` but must be one of " ++
      Text.joinWith ", " (allowed.map Text.quoted)
  | formatNotAllowed name index text =>
    s!"argument {index + 1} of `{name}` is `{text}` which matches none of the allowed formats"
  | byOverload name reason => s!"`{name}` rejected the call: {reason}"
  | byCallable name reason => s!"`{name}` rejected the call: {reason}"

def help? : Refusal → Option String
  | noMatch _ _ declared =>
    some ("declared syntaxes:\n" ++ Text.joinWith "\n" (declared.map ("  " ++ ·)))
  | valueNotAllowed _ index _ _ => some s!"check argument {index + 1}"
  | formatNotAllowed _ index _ => some s!"check argument {index + 1}"
  | byOverload .. => none
  | byCallable .. => none

/-- The refusal as a diagnostic at the place of the call. -/
def diagnostic (r : Refusal) (site : Option Span) : Diagnostic :=
  let d := (Diagnostic.coded r.code r.message).pointing site "called here"
  match r.help? with
  | some help => d.advising help
  | none => d

end Refusal

/-- The overload that a call takes, with its place in the declaration. -/
structure Choice (D : Domain) where
  index : Nat
  overload : Overload D

namespace Callable

variable {D : Domain}

/-- The first overload, counted from `index`, whose shape fits. -/
def firstFitting (lenient : Bool) (kinds : List D.Kind) (index : Nat) :
    List (Overload D) → Option (Choice D)
  | [] => none
  | o :: os =>
    if o.accepts lenient kinds then some ⟨index, o⟩ else firstFitting lenient kinds (index + 1) os

/-- The first argument, counted from `index`, that breaks the rule for it: `check` gives the
refusal for the text of an argument. -/
def firstBroken (check : Nat → String → Option Refusal) (index : Nat) :
    List (Argument D.Kind) → Option Refusal
  | [] => none
  | a :: as => ((a.text.bind (check index)).or (firstBroken check (index + 1) as))

def checkValue (c : Callable D) (count index : Nat) (text : String) : Option Refusal :=
  match Scoped.effective c.values index count with
  | some rule =>
    if rule.allows text then none else some (.valueNotAllowed c.name index text rule.allowed)
  | none => none

def checkFormat (c : Callable D) (count index : Nat) (text : String) : Option Refusal :=
  match Scoped.effective c.formats index count with
  | some rule => if rule.allows text then none else some (.formatNotAllowed c.name index text)
  | none => none

/-- The first rule that the arguments break; values are looked at before formats. -/
def brokenRule (c : Callable D) (arguments : List (Argument D.Kind)) : Option Refusal :=
  (firstBroken (c.checkValue arguments.length) 0 arguments).or
    (firstBroken (c.checkFormat arguments.length) 0 arguments)

/-- Resolves a call; if `lenient`, kinds may stand for others. -/
def resolve (c : Callable D) (arguments : List (Argument D.Kind)) (lenient : Bool) :
    Except Refusal (Choice D) :=
  let kinds := arguments.map (·.kind)
  match firstFitting lenient kinds 0 c.overloads with
  | none =>
    .error (.noMatch c.name (kinds.map D.kindLabel) (c.overloads.map (·.describe c.name)))
  | some choice =>
    match c.brokenRule arguments with
    | some refusal => .error refusal
    | none =>
      match choice.overload.validate arguments with
      | .error reason => .error (.byOverload c.name reason)
      | .ok () =>
        match c.validate arguments with
        | .error reason => .error (.byCallable c.name reason)
        | .ok () => .ok choice

end Callable

end Reckon
