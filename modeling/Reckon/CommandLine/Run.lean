import Reckon.CommandLine.Arguments
import Reckon.Compiler
import Reckon.Number.Catalog
import Reckon.Toml.Reader

/-!
# Running the command line

`run` does what the arguments ask for and says what is printed and whether it fails.  The selected
artifacts are printed first, so that they can be seen of a faulty expression too; the value, or the
word `valid`, comes last.
-/

namespace Reckon.CommandLine

/-- What a path leads to. -/
inductive File where
  | missing
  | unreadable
  | text (content : String)

/-- What was printed, and how the run failed if it did. -/
structure Outcome where
  output : String
  failure : Option Failure

/-- Whether there is anything at the path. -/
def File.isThere : File → Bool
  | missing => false
  | _ => true

/-- The settings in a file that has to be there. -/
def loadFile (files : String → File) (path : String) : Except Failure Settings :=
  match files path with
  | .missing => .error (.config (.missingFile path))
  | .unreadable => .error .io
  | .text content => do
    let d ← (Toml.read content).mapError fun _ => .config .unreadable
    (Document.readSettings d).mapError fun _ => .config .unreadable

/-- Where the settings of a directory are kept. -/
def localPath : String := "formulary/config.toml"

/-- Where settings are looked for, in this order; the user may have a file of their own. -/
def searchPaths (platform : Option String) : List String := localPath :: platform.toList

/-- The first of these paths at which there is a file. -/
def findSettings (files : String → File) (platform : Option String) : Option String :=
  (searchPaths platform).find? fun path => (files path).isThere

/-- The settings in the given file, else in the one that is found, else the default ones. -/
def loadSettings (files : String → File) (platform config : Option String) :
    Except Failure Settings :=
  match config.or (findSettings files platform) with
  | some path => loadFile files path
  | none => .ok {}

/-- A variable with its value, as `NAME=VALUE`; blanks around either do not count. -/
def readVariable (definition : String) : Except Failure (String × Float) :=
  let cs := definition.toList
  let name := cs.takeWhile (· != '=')
  let trimmed := Text.trim name
  match cs.drop name.length with
  | [] => .error (.config (.badVariable definition))
  | _ :: value =>
    if trimmed.isEmpty then .error (.config (.badVariable definition))
    else
      match Number.read? (String.ofList (Text.trim value)) with
      | some x => .ok (String.ofList trimmed, x)
      | none => .error (.config (.badVariable definition))

/-- The compiler for some settings; the given names are known variables. -/
def compilerFor (s : Settings) (names : List String) : Except Failure (Compiler numbers) := do
  let catalog ← Number.catalog.mapError fun e => .config (.catalog e)
  let dialect ← (Dialect.build .standard).mapError fun c => .config (.clash c)
  let plan ← Plan.configure { catalog := catalog, dialect := dialect } s
  return Plan.build { plan with variablePolicy := plan.variablePolicy.knowing names }

/-- The tokens with blanks between them. -/
def listTokens (ts : List Token) : String := Text.joinWith " " (ts.map toString)

/-- A line for each selected artifact. -/
def artifacts {D : Domain} (shows : List Show) (e : Compiled D) : String :=
  let wants := fun a => shows.any (·.includes a)
  let tree := match e.tree with
    | some t => t.render
    | none => "<none>"
  (if wants .tokens then s!"tokens: {listTokens e.tokens}\n" else "") ++
    (if wants .postfixOrder then s!"postfix: {listTokens e.polish}\n" else "") ++
    (if wants .tree then s!"tree: {tree}\n" else "")

/-- What comes behind the artifacts: the value of the expression or that it is valid. -/
def conclude (checkOnly : Bool) (e : Compiled numbers) (bindings : List (String × Float)) :
    Except Failure String := do
  let _ ← e.check
  if checkOnly then return "valid\n"
  let value ← e.evaluate (OrderedMap.ofList bindings)
  return s!"{Number.text value}\n"

/-- Everything that is settled before the first line is printed. -/
def prepare (files : String → File) (platform : Option String) (a : Arguments) :
    Except Failure (Compiler numbers × List (String × Float)) := do
  let s ← loadSettings files platform a.config
  let bindings ← a.definitions.mapM readVariable
  return (← compilerFor s (bindings.map (·.1)), bindings)

/-- Does what the arguments ask for; the user's own settings, if any, are at the platform's path. -/
def run (files : String → File) (a : Arguments) (platform : Option String := none) : Outcome :=
  match prepare files platform a with
  | .error failure => ⟨"", some failure⟩
  | .ok (compiler, bindings) =>
    let e := compiler.compile a.expression
    let shown := artifacts a.shows e
    match conclude a.checkOnly e bindings with
    | .error failure => ⟨shown, some failure⟩
    | .ok line => ⟨shown ++ line, none⟩

end Reckon.CommandLine
