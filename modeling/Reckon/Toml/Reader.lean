import Reckon.Toml.Values

/-!
# TOML texts

A text is a list of lines: headers, which say what table the next keys belong to, and keys with
their values.
-/

namespace Reckon.Toml

/-- What has been read: the tables so far and the path of the one that keys go to. -/
structure Progress where
  entries : Entries
  current : List String

/-- Nothing but a comment may follow on the line. -/
def endLine (cs : List Char) : Except Error (List Char) := do
  match ← skipComment (skipSpaces cs) with
  | [] => return []
  | '\n' :: rest => return rest
  | '\r' :: '\n' :: rest => return rest
  | _ => .error .unexpected

/-- One header or one key with its value. -/
def readLine (p : Progress) (cs : List Char) : Except Error (Progress × List Char) := do
  match cs with
  | '[' :: '[' :: cs =>
    let (key, rest) ← readKey cs
    match rest with
    | ']' :: ']' :: rest =>
      let entries ← modify .implied (defineRow key.last) key.path p.entries
      return (⟨entries, key.path ++ [key.last]⟩, ← endLine rest)
    | _ => .error .unexpected
  | '[' :: cs =>
    let (key, rest) ← readKey cs
    match rest with
    | ']' :: rest =>
      let entries ← modify .implied (defineTable key.last) key.path p.entries
      return (⟨entries, key.path ++ [key.last]⟩, ← endLine rest)
    | _ => .error .unexpected
  | cs =>
    let (key, rest) ← readKey cs
    match skipSpaces rest with
    | '=' :: rest =>
      let rest := skipSpaces rest
      let (value, rest) ← readValue (2 * rest.length + 2) rest
      let entries ← modify .implied (assignDotted key value) p.current p.entries
      return (⟨entries, p.current⟩, ← endLine rest)
    | _ => .error .unexpected

/-- All lines; the fuel bounds their number. -/
def readLines : Nat → Progress → List Char → Except Error Progress
  | 0, p, _ => .ok p
  | fuel + 1, p, cs => do
    match ← skipLines (cs.length + 1) cs with
    | [] => return p
    | cs =>
      let (p, rest) ← readLine p cs
      readLines fuel p rest

/-- Reads a TOML text; a byte order mark in front is skipped. -/
def read (text : String) : Except Error Document := do
  let cs := match text.toList with
    | '\ufeff' :: cs => cs
    | cs => cs
  let p ← readLines (cs.length + 1) ⟨[], []⟩ cs
  return .table (entriesDocument p.entries)

end Reckon.Toml
