import Reckon.Regex.Reader
import Reckon.Regex.Search

/-!
# Rules on argument text

A rule restricts how the arguments of a call may be written.  Its scope says which arguments it is
for; of several rules the most special one decides: last argument, then position, then all.
-/

namespace Reckon

inductive Scope where
  | all
  | last
  | position (index : Nat)
deriving DecidableEq

structure Scoped (α : Type) where
  scope : Scope
  rule : α

namespace Scoped

variable {α : Type}

/-- The first rule with a scope. -/
def ofScope? (rules : List (Scoped α)) (scope : Scope) : Option α :=
  (rules.find? (·.scope == scope)).map (·.rule)

/-- The rule that decides on argument `index` of `count`. -/
def effective (rules : List (Scoped α)) (index count : Nat) : Option α :=
  (if index + 1 = count then ofScope? rules .last else none).or <|
    (ofScope? rules (.position index)).or (ofScope? rules .all)

end Scoped

/-- A regular expression with its written form. -/
structure Pattern where
  source : String
  regex : Regex

def Pattern.read (source : String) : Except Regex.ReadError Pattern := do
  return ⟨source, ← Regex.read source⟩

def Pattern.matchesIn (p : Pattern) (text : String) : Bool := p.regex.matchesIn text.toList

/-- The texts that an argument may have. -/
structure ValueRule where
  allowed : List String

namespace ValueRule

def ofList (texts : List String) : ValueRule := ⟨texts.eraseDups⟩

def allows (r : ValueRule) (text : String) : Bool := r.allowed.contains text

end ValueRule

/-- The formats of which an argument must match one. -/
structure FormatRule where
  patterns : List Pattern

namespace FormatRule

def read (sources : List String) : Except Regex.ReadError FormatRule := do
  return ⟨← sources.mapM Pattern.read⟩

def allows (r : FormatRule) (text : String) : Bool := r.patterns.any (·.matchesIn text)

end FormatRule

end Reckon
