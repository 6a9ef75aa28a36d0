/-!
# Command-line arguments

One expression and options.  An option's value may be attached to it or come next.  It is looked at
only when the next option or expression comes along, so an unknown option behind a bad value is
what gets reported.
-/

namespace Reckon.CommandLine

/-- What can be printed of a compiled expression. -/
inductive Artifact where
  | tokens
  | postfixOrder
  | tree
deriving DecidableEq

/-- A choice of artifacts. -/
inductive Show where
  | only (a : Artifact)
  | all
deriving DecidableEq

namespace Show

def includes (s : Show) (a : Artifact) : Bool :=
  match s with
  | only b => b == a
  | all => true

def ofText? (text : String) : Option Show :=
  if text = "tokens" then some (only .tokens)
  else if text = "postfix" then some (only .postfixOrder)
  else if text = "tree" then some (only .tree)
  else if text = "all" then some all
  else none

end Show

structure Arguments where
  expression : String
  config : Option String
  definitions : List String
  shows : List Show
  checkOnly : Bool
deriving DecidableEq

inductive UsageError where
  | missingExpression
  | unknownArgument
  | invalidValue
  | repeated
  | uselessValue
  | help
  | version
deriving DecidableEq

/-- The options that take a value. -/
inductive Setting where
  | config
  | binding
  | shows
  | logLevel
deriving DecidableEq

/-- The options that stand alone. -/
inductive Flag where
  | check
  | help
  | version
deriving DecidableEq

inductive Known where
  | setting (s : Setting)
  | flag (f : Flag)

def longOption? (name : String) : Option Known :=
  if name = "config" then some (.setting .config)
  else if name = "var" then some (.setting .binding)
  else if name = "show" then some (.setting .shows)
  else if name = "log-level" then some (.setting .logLevel)
  else if name = "check" then some (.flag .check)
  else if name = "help" then some (.flag .help)
  else if name = "version" then some (.flag .version)
  else none

def shortOption? : Char → Option Known
  | 'c' => some (.setting .config)
  | 'v' => some (.setting .binding)
  | 's' => some (.setting .shows)
  | 'h' => some (.flag .help)
  | 'V' => some (.flag .version)
  | _ => none

/-! ### Reading -/

/-- What has been read.  `pending` is an option whose value has not been looked at yet, or has not
come yet. -/
structure Progress where
  expression : Option String := none
  config : Option String := none
  definitions : List String := []
  shows : List Show := []
  checkOnly : Bool := false
  logLevel : Option String := none
  pending : Option (Setting × Option String) := none
  /-- Whether two dashes have ended the options. -/
  optionsEnded : Bool := false

namespace Progress

/-- Takes a value in; only some options may come more than once. -/
def accept (p : Progress) (s : Setting) (value : String) : Except UsageError Progress :=
  match s with
  | .config =>
    if p.config.isSome then .error .repeated else .ok { p with config := some value }
  | .logLevel =>
    if p.logLevel.isSome then .error .repeated else .ok { p with logLevel := some value }
  | .binding => .ok { p with definitions := p.definitions ++ [value] }
  | .shows =>
    match Show.ofText? value with
    | some choice => .ok { p with shows := p.shows ++ [choice] }
    | none => .error .invalidValue

/-- Looks at the pending option; one without value is an error. -/
def settle (p : Progress) : Except UsageError Progress :=
  match p.pending with
  | none => .ok p
  | some (_, none) => .error .invalidValue
  | some (s, some value) => accept { p with pending := none } s value

def raise (p : Progress) (f : Flag) : Except UsageError Progress := do
  let p ← p.settle
  match f with
  | .check => if p.checkOnly then .error .repeated else .ok { p with checkOnly := true }
  | .help => .error .help
  | .version => .error .version

/-- An option that takes a value, which may be attached to it. -/
def await (p : Progress) (s : Setting) (attached : Option String) : Except UsageError Progress := do
  let p ← p.settle
  match attached with
  | some value => p.accept s value
  | none => return { p with pending := some (s, none) }

/-- An option with a long name, behind the two dashes. -/
def takeLong (p : Progress) (cs : List Char) : Except UsageError Progress :=
  let name := cs.takeWhile (· != '=')
  let attached := match cs.drop name.length with
    | [] => none
    | _ :: value => some (String.ofList value)
  match longOption? (String.ofList name), attached with
  | none, _ => .error .unknownArgument
  | some (.setting s), attached => p.await s attached
  | some (.flag _), some _ => .error .uselessValue
  | some (.flag f), none => p.raise f

/-- Options with short names, behind one dash; what follows an option that takes a value is its
value, with or without an equals sign. -/
def takeShort (p : Progress) : List Char → Except UsageError Progress
  | [] => .ok p
  | c :: cs =>
    match shortOption? c with
    | none => .error .unknownArgument
    | some (.setting s) =>
      match cs with
      | [] => p.await s none
      | '=' :: value => p.await s (some (String.ofList value))
      | value => p.await s (some (String.ofList value))
    | some (.flag f) => do takeShort (← p.raise f) cs

/-- The expression; there is only one. -/
def takeExpression (p : Progress) (text : String) : Except UsageError Progress :=
  if p.expression.isSome then .error .unknownArgument
  else do
    let p ← p.settle
    return { p with expression := some text }

/-- An argument that is no option: the value that is waited for, or the expression. -/
def takeText (p : Progress) (text : String) : Except UsageError Progress :=
  match p.pending with
  | some (s, none) => .ok { p with pending := some (s, some text) }
  | _ => p.takeExpression text

def take (p : Progress) (text : String) : Except UsageError Progress :=
  if p.optionsEnded then p.takeExpression text
  else
    match text.toList with
    | ['-', '-'] => .ok { p with optionsEnded := true }
    | '-' :: '-' :: cs => p.takeLong cs
    | '-' :: c :: cs => p.takeShort (c :: cs)
    | _ => p.takeText text

end Progress

/-- Reads the arguments behind the program's name. -/
def Arguments.read (argv : List String) : Except UsageError Arguments := do
  let p ← argv.foldlM Progress.take {}
  let p ← p.settle
  match p.expression with
  | some expression => return ⟨expression, p.config, p.definitions, p.shows, p.checkOnly⟩
  | none => .error .missingExpression

end Reckon.CommandLine
