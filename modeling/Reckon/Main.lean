import Reckon.CommandLine.Notice
import Reckon.CommandLine.Run

/-!
# The program

Reads the file that the arguments name, or those that settings are looked for in, runs, prints.
-/

namespace Reckon.CommandLine

def usage : String :=
  "Usage: reckon [OPTIONS] <EXPRESSION>\n\n" ++
    "Options:\n" ++
    "  -c, --config <CONFIG>        Path to configuration file (TOML)\n" ++
    "  -v, --var <NAME=VALUE>       Variable value, as NAME=VALUE (repeatable)\n" ++
    "  -s, --show <SHOW>            Artifacts to print: tokens, postfix, tree, all\n" ++
    "      --check                  Only validate the expression, do not evaluate it\n" ++
    "      --log-level <LOG_LEVEL>  Log level\n" ++
    "  -h, --help                   Print help\n" ++
    "  -V, --version                Print version\n"

/-- What is said about arguments that cannot be used. -/
def UsageError.message : UsageError → String
  | missingExpression => "error: the expression is missing"
  | unknownArgument => "error: unexpected argument"
  | invalidValue => "error: missing or invalid value of an option"
  | repeated => "error: an option is given more than once"
  | uselessValue => "error: a value for an option that takes none"
  | help => ""
  | version => ""

/-- A notice as lines of text, with the remarks under its message. -/
def Notice.lines (n : Notice) : List String :=
  let heading := match n.code with
    | some code => s!"error[{code}]: {n.message}"
    | none => s!"error: {n.message}"
  let remarks := n.remarks.map fun r => s!"  at {r.offset}..{r.offset + r.length}: {r.text}"
  heading :: remarks ++ (n.help.toList.map fun help => s!"  help: {help}")

/-- Where the user's own settings are kept: under `XDG_CONFIG_HOME` if that is an absolute path,
else in `.config` under `HOME`. -/
def platformPath (configHome home : Option String) : Option String :=
  let directory := (configHome.filter (·.startsWith "/")).or
    ((home.filter (!·.isEmpty)).map (· ++ "/.config"))
  directory.map (· ++ "/formulary/config.toml")

/-- What a path that settings are read from leads to. -/
def readFile (path : String) : IO File := do
  try
    return .text (← IO.FS.readFile path)
  catch
    | .noFileOrDirectory .. => return .missing
    -- a file stands where a directory of the path should be
    | .inappropriateType (some _) .. => return .missing
    | _ => return .unreadable

/-- What the paths lead to; nothing is found anywhere else. -/
def readFiles (paths : List String) : IO (String → File) := do
  let found ← paths.mapM fun path => return (path, ← readFile path)
  return fun path => (found.lookup path).getD .missing

end Reckon.CommandLine

open Reckon.CommandLine in
def main (argv : List String) : IO UInt32 := do
  match Arguments.read argv with
  | .error .help =>
    IO.print usage
    return 0
  | .error .version =>
    IO.println "reckon 0.1.0"
    return 0
  | .error e =>
    IO.eprintln e.message
    IO.eprint usage
    return 2
  | .ok arguments =>
    let platform := platformPath (← IO.getEnv "XDG_CONFIG_HOME") (← IO.getEnv "HOME")
    let files ← readFiles (arguments.config.elim (searchPaths platform) ([·]))
    let outcome := run files arguments platform
    IO.print outcome.output
    match outcome.failure with
    | none => return 0
    | some failure =>
      for line in (noticesOf failure).flatMap Notice.lines do
        IO.eprintln line
      return 1
