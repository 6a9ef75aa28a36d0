import Std.Data.HashSet
import Reckon.Text.Word
import Reckon.Text.Digit
import Reckon.Text

/-!
# Regular expressions

A regular expression is matched by listing, in order of preference, every place that it can end at
(`Regex.ends`).  The first place is the preferred match: alternatives are tried left to right, a
greedy repetition prefers more, a lazy one less.  Of several ways to the same place only the
preferred one is kept, because nothing that follows can tell them apart; so the list is never longer
than the text.
-/

namespace Reckon

/-- A set of characters. -/
inductive CharSet where
  | nothing
  | char (c : Char)
  | range (lo hi : Char)
  | digit
  | word
  | blank
  | line
  | union (s t : CharSet)
  | other (s : CharSet)
deriving DecidableEq

/-- Membership; `line` holds all but the line feed, `other s` what `s` does not. -/
def CharSet.has : CharSet → Char → Bool
  | nothing, _ => false
  | char d, c => c == d
  | range lo hi, c => decide (lo ≤ c) && decide (c ≤ hi)
  | digit, c => Text.isDecimal c
  | word, c => Text.isWord c
  | blank, c => Text.isBlank c
  | line, c => c != '\n'
  | union s t, c => s.has c || t.has c
  | other s, c => !s.has c

/-- A condition on a place that takes no character. -/
inductive Anchor where
  | textStart
  | textEnd
  | wordBoundary
  | noWordBoundary
deriving DecidableEq

inductive Regex where
  | empty
  | one (s : CharSet)
  | anchor (a : Anchor)
  | seq (r s : Regex)
  | either (r s : Regex)
  /-- Characters of a set, any number of them. -/
  | run (s : CharSet) (greedy : Bool)
  /-- Repetition, at least once. -/
  | many (r : Regex) (greedy : Bool)
  | named (name : String) (r : Regex)
deriving DecidableEq

namespace Regex

/-- A stretch of the text, with the text that follows its start. -/
structure Slice where
  start : Nat
  stop : Nat
  following : List Char

/-- The characters of the stretch. -/
def Slice.text (s : Slice) : String :=
  String.ofList ((Text.takeWidth (s.stop - s.start) s.following).getD [])

/-- A place in the text: its offset, the character before it, the text after it, and the named
groups captured on the way, the latest first. -/
structure Place where
  offset : Nat
  before : Option Char
  rest : List Char
  groups : List (String × Slice)

namespace Place

def wordBefore (p : Place) : Bool := p.before.any Text.isWord

def wordAfter (p : Place) : Bool := p.rest.head?.any Text.isWord

/-- The place behind the next character. -/
def next (p : Place) (c : Char) (cs : List Char) : Place :=
  ⟨p.offset + c.utf8Size, some c, cs, p.groups⟩

end Place

end Regex

def Anchor.holds (a : Anchor) (p : Regex.Place) : Bool :=
  match a with
  | textStart => p.before.isNone
  | textEnd => p.rest.isEmpty
  | wordBoundary => p.wordBefore != p.wordAfter
  | noWordBoundary => p.wordBefore == p.wordAfter

namespace Regex

/-- Drops every place whose offset came earlier in the list. -/
def distinct (seen : Std.HashSet Nat) : List Place → List Place
  | [] => []
  | p :: ps =>
    if seen.contains p.offset then distinct seen ps
    else p :: distinct (seen.insert p.offset) ps

/-- The places reached by taking characters of `s` from here on, the nearest first. -/
def runFrom (s : CharSet) (groups : List (String × Slice)) (before : Option Char) (offset : Nat) :
    List Char → List Place
  | [] => [⟨offset, before, [], groups⟩]
  | c :: cs =>
    ⟨offset, before, c :: cs, groups⟩ ::
      if s.has c then runFrom s groups (some c) (offset + c.utf8Size) cs else []

/-! ### Repetition

A repetition is walked depth first.  `Walk.seen` holds the offsets met so far, so that no place is
explored twice; a turn that takes no character ends the repetition. -/

structure Walk where
  seen : Std.HashSet Nat
  found : List Place

/-- Visits `p`, a place behind some turns; `step` gives the places behind one more turn. The fuel
bounds the number of turns that each take a character. -/
def Walk.visit (step : Place → List Place) (greedy : Bool) (origin : Nat) :
    Nat → Walk → Place → Walk
  | 0, w, _ => w
  | fuel + 1, w, p =>
    if w.seen.contains p.offset then w
    else
      let marked := w.seen.insert p.offset
      if p.offset = origin then ⟨marked, p :: w.found⟩
      else if greedy then
        let w := (step p).foldl (visit step greedy origin fuel) ⟨marked, w.found⟩
        ⟨w.seen, p :: w.found⟩
      else (step p).foldl (visit step greedy origin fuel) ⟨marked, p :: w.found⟩

/-- The places behind one or more turns from `p`, in order of preference. -/
def repeated (step : Place → List Place) (greedy : Bool) (p : Place) : List Place :=
  ((step p).foldl (Walk.visit step greedy p.offset (p.rest.length + 1)) ⟨∅, []⟩).found.reverse

/-- The places at which a match from `p` can end, the preferred one first. -/
def ends : Regex → Place → List Place
  | empty, p => [p]
  | one s, p =>
    match p.rest with
    | [] => []
    | c :: cs => if s.has c then [p.next c cs] else []
  | anchor a, p => if a.holds p then [p] else []
  | seq r s, p =>
    match r.ends p with
    | [] => []
    | [q] => s.ends q
    | qs => distinct ∅ (qs.flatMap s.ends)
  | either r s, p =>
    match r.ends p, s.ends p with
    | [], qs => qs
    | ps, [] => ps
    | ps, qs => distinct ∅ (ps ++ qs)
  | run s greedy, p =>
    let places := runFrom s p.groups p.before p.offset p.rest
    if greedy then places.reverse else places
  | many r greedy, p => repeated r.ends greedy p
  | named name r, p =>
    (r.ends p).map fun q => { q with groups := (name, ⟨p.offset, q.offset, p.rest⟩) :: q.groups }

/-- The names of the groups, in the order of their opening brackets. -/
def groupNames : Regex → List String
  | seq r s | either r s => r.groupNames ++ s.groupNames
  | many r _ => r.groupNames
  | named name r => name :: r.groupNames
  | _ => []

/-- Zero or one time. -/
def optional (r : Regex) (greedy : Bool) : Regex :=
  if greedy then either r empty else either empty r

/-- Any number of times. -/
def star (r : Regex) (greedy : Bool) : Regex :=
  match r with
  | one s => run s greedy
  | r => optional (many r greedy) greedy

/-- At least once. -/
def plus (r : Regex) (greedy : Bool) : Regex :=
  match r with
  | one s => seq (one s) (run s greedy)
  | r => many r greedy

/-- A number of times in a row. -/
def times (r : Regex) : Nat → Regex
  | 0 => empty
  | 1 => r
  | n + 1 => seq r (times r n)

/-- At most `n` times. -/
def upTo (r : Regex) (greedy : Bool) : Nat → Regex
  | 0 => empty
  | n + 1 => optional (seq r (upTo r greedy n)) greedy

end Regex

end Reckon
