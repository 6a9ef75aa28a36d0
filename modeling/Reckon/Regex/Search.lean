import Reckon.Regex.Basic

/-!
# Searching a text

Matches are sought from left to right and do not overlap.  An empty match that would touch the end
of the match before it is passed over.
-/

namespace Reckon.Regex

structure Match where
  whole : Slice
  groups : List (String × Slice)

/-- The latest capture of a group. -/
def Match.group? (m : Match) (name : String) : Option Slice := m.groups.lookup name

/-- Matches in a text from `offset` on.  None starts before `resume`; `barred` is where the last
match ended. -/
def matchesFrom (r : Regex) (resume : Nat) (barred : Option Nat) (before : Option Char)
    (offset : Nat) (rest : List Char) : List Match :=
  let found := if offset < resume then none else (r.ends ⟨offset, before, rest, []⟩).head?
  match found with
  | some q =>
    if q.offset = offset ∧ barred = some offset then
      match rest with
      | [] => []
      | c :: cs => matchesFrom r resume barred (some c) (offset + c.utf8Size) cs
    else
      ⟨⟨offset, q.offset, rest⟩, q.groups⟩ ::
        match rest with
        | [] => []
        | c :: cs =>
          matchesFrom r q.offset (some q.offset) (some c) (offset + c.utf8Size) cs
  | none =>
    match rest with
    | [] => []
    | c :: cs => matchesFrom r resume barred (some c) (offset + c.utf8Size) cs

/-- All matches in a text. -/
def findAll (r : Regex) (text : List Char) : List Match := r.matchesFrom 0 none none 0 text

/-- The first match in a text. -/
def find? (r : Regex) (text : List Char) : Option Match := (r.findAll text).head?

def matchesIn (r : Regex) (text : List Char) : Bool := (r.find? text).isSome

end Reckon.Regex
