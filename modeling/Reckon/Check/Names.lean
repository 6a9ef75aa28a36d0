import Reckon.Check.Verdicts
import Reckon.Regex.Reader
import Reckon.Regex.Search
import Reckon.Tree.Basic

/-!
# Names

Finds variables and functions that nobody declared.  A name policy lists the names that are known
and the exemptions, rules by which a name is ignored though it is not known.
-/

namespace Reckon

inductive Exemption where
  | startsWith (text : String)
  | endsWith (text : String)
  /-- The pattern matches somewhere in the name. -/
  | pattern (r : Regex)
  /-- The first match captures a text that is not empty in the group. -/
  | capture (r : Regex) (group : String)

def Exemption.covers (name : String) : Exemption → Bool
  | startsWith text => text.toList.isPrefixOf name.toList
  | endsWith text => text.toList.isSuffixOf name.toList
  | pattern r => r.matchesIn name.toList
  | capture r group =>
    ((r.find? name.toList).bind (·.group? group)).any fun s => decide (s.start < s.stop)

structure NamePolicy where
  known : List String
  exemptions : List Exemption

namespace NamePolicy

/-- Knows no name and ignores none. -/
def strict : NamePolicy := ⟨[], []⟩

/-- Adds known names. -/
def knowing (p : NamePolicy) (names : List String) : NamePolicy :=
  { p with known := p.known ++ names }

def isKnown (p : NamePolicy) (name : String) : Bool := p.known.contains name

def isIgnored (p : NamePolicy) (name : String) : Bool := p.exemptions.any (·.covers name)

end NamePolicy

inductive NameSort where
  | ofVariable
  | ofFunction
deriving DecidableEq

namespace NameSort

def label : NameSort → String
  | ofVariable => "variable"
  | ofFunction => "function"

def kind : NameSort → TokenKind
  | ofVariable => .identifier
  | ofFunction => .call

def code : NameSort → Code
  | ofVariable => .unknownVariable
  | ofFunction => .unknownFunction

end NameSort

structure NameUse where
  token : Token
  sort : NameSort
deriving DecidableEq

namespace NameUse

def diagnostic (u : NameUse) : Diagnostic :=
  (Diagnostic.coded u.sort.code s!"unknown {u.sort.label} `{u.token.text}`").pointing
    u.token.span s!"not a declared {u.sort.label}"

/-- Known names are in order; of the others, those that the policy ignores are set apart. -/
def inspect (sort : NameSort) (policy : NamePolicy) (t : Tree) : Verdicts NameUse :=
  let uses := (t.visitsOf sort.kind).map fun v => (⟨v.tree.token, sort⟩ : NameUse)
  let known := fun (u : NameUse) => policy.isKnown u.token.text
  let ignored := fun (u : NameUse) => policy.isIgnored u.token.text
  ⟨uses.filter known, uses.filter fun u => !known u && !ignored u,
    uses.filter fun u => !known u && ignored u⟩

end NameUse

end Reckon
