import Reckon.Regex.Item

/-!
# Reading regular expressions

The items of a written expression are assembled with a stack of open groups.  `Regex.read` refuses
what is not well formed and says why.  Properties of characters, flags, and classes in classes are
not read either (`ReadError.unsupported`).
-/

namespace Reckon.Regex

/-- An open group: its name, the finished alternatives and the current one, latest first. -/
structure Frame where
  name : Option String
  alternatives : List Regex
  current : List Regex

/-- A list of parts in a row. -/
def inRow : List Regex → Regex
  | [] => empty
  | [r] => r
  | r :: rs => seq r (inRow rs)

/-- A choice between alternatives, the preferred one first. -/
def choice : List Regex → Regex
  | [] => empty
  | [r] => r
  | r :: rs => either r (choice rs)

def Frame.close (f : Frame) : Regex :=
  let body := choice ((inRow f.current.reverse :: f.alternatives).reverse)
  match f.name with
  | some name => named name body
  | none => body

/-- Repetition from `least` to `most` times. -/
def counted (r : Regex) (least : Nat) (most : Option Nat) (greedy : Bool) : Regex :=
  match least, most with
  | 0, none => star r greedy
  | 1, none => plus r greedy
  | least + 1, none => seq (times r least) (plus r greedy)
  | 0, some most => upTo r greedy most
  | least, some most =>
    if most = least then times r least else seq (times r least) (upTo r greedy (most - least))

/-- Takes in one item; the list holds the open groups around the innermost one, `f`. -/
def assembleItem (f : Frame) (outer : List Frame) : Item → Except ReadError (Frame × List Frame)
  | .atom r => .ok ({ f with current := r :: f.current }, outer)
  | .openGroup name => .ok (⟨name, [], []⟩, f :: outer)
  | .closeGroup =>
    match outer with
    | [] => .error .unopenedGroup
    | g :: outer => .ok ({ g with current := f.close :: g.current }, outer)
  | .bar =>
    .ok ({ f with alternatives := inRow f.current.reverse :: f.alternatives, current := [] }, outer)
  | .repetition least most greedy =>
    match f.current with
    | [] => .error .nothingToRepeat
    | r :: rs => .ok ({ f with current := counted r least most greedy :: rs }, outer)

def assemble (f : Frame) (outer : List Frame) : List Item → Except ReadError Regex
  | [] => if outer.isEmpty then .ok f.close else .error .unclosedGroup
  | item :: items => do
    let (f, outer) ← assembleItem f outer item
    assemble f outer items

/-- The names that the items give to groups. -/
def itemNames (items : List Item) : List String :=
  items.filterMap fun
    | .openGroup name => name
    | _ => none

/-- Reads a regular expression. -/
def read (text : String) : Except ReadError Regex := do
  let cs := text.toList
  let items ← readItems cs.length cs
  let names := itemNames items
  if names.eraseDups.length < names.length then .error .duplicateGroupName
  assemble ⟨none, [], []⟩ [] items

end Reckon.Regex
