/-!
# Text

Text as lists of characters whose places are byte offsets in UTF-8.  `dropWidth` and `takeWidth` cut
at an offset and refuse to cut inside a character; `occurrences` lists where a symbol stands, from
left to right and without overlap.
-/

namespace Reckon.Text

/-- Number of bytes that the characters take in UTF-8. -/
def width : List Char → Nat
  | [] => 0
  | c :: cs => c.utf8Size + width cs

@[simp] theorem width_nil : width [] = 0 := rfl

@[simp] theorem width_cons (c : Char) (cs : List Char) : width (c :: cs) = c.utf8Size + width cs :=
  rfl

@[simp] theorem width_append (cs ds : List Char) : width (cs ++ ds) = width cs + width ds := by
  induction cs with
  | nil => simp
  | cons c cs ih => simp [ih, Nat.add_assoc]

/-- What follows the first `n` bytes; none when byte `n` lies inside a character or past the end. -/
def dropWidth : Nat → List Char → Option (List Char)
  | 0, cs => some cs
  | _ + 1, [] => none
  | n + 1, c :: cs => if c.utf8Size ≤ n + 1 then dropWidth (n + 1 - c.utf8Size) cs else none

/-- The first `n` bytes; none when byte `n` lies inside a character or past the end. -/
def takeWidth : Nat → List Char → Option (List Char)
  | 0, _ => some []
  | _ + 1, [] => none
  | n + 1, c :: cs =>
    if c.utf8Size ≤ n + 1 then (takeWidth (n + 1 - c.utf8Size) cs).map (c :: ·) else none

theorem dropWidth_append (cs ds : List Char) : dropWidth (width cs) (cs ++ ds) = some ds := by
  induction cs with
  | nil => simp [dropWidth]
  | cons c cs ih =>
    have hc : 0 < c.utf8Size := c.utf8Size_pos
    obtain ⟨n, hn⟩ : ∃ n, c.utf8Size + width cs = n + 1 := ⟨c.utf8Size + width cs - 1, by omega⟩
    have hle : c.utf8Size ≤ n + 1 := by omega
    have hsub : n + 1 - c.utf8Size = width cs := by omega
    simp only [width_cons, hn, List.cons_append, dropWidth, hle, if_true, hsub, ih]

theorem takeWidth_append (cs ds : List Char) : takeWidth (width cs) (cs ++ ds) = some cs := by
  induction cs with
  | nil => simp [takeWidth]
  | cons c cs ih =>
    have hc : 0 < c.utf8Size := c.utf8Size_pos
    obtain ⟨n, hn⟩ : ∃ n, c.utf8Size + width cs = n + 1 := ⟨c.utf8Size + width cs - 1, by omega⟩
    have hle : c.utf8Size ≤ n + 1 := by omega
    have hsub : n + 1 - c.utf8Size = width cs := by omega
    simp only [width_cons, hn, List.cons_append, takeWidth, hle, if_true, hsub, ih, Option.map_some]

/-- The characters with the offset of each, the first at `offset`. -/
def positioned (offset : Nat) : List Char → List (Nat × Char)
  | [] => []
  | c :: cs => (offset, c) :: positioned (offset + c.utf8Size) cs

/-- Offsets at which `symbol` stands, left to right; after a hit the search goes on behind it.
`skip` counts the characters of the last hit that are still to be passed. -/
def occurrences (symbol : List Char) (skip offset : Nat) : List Char → List Nat
  | [] => []
  | c :: cs =>
    match skip with
    | skip + 1 => occurrences symbol skip (offset + c.utf8Size) cs
    | 0 =>
      if symbol.isPrefixOf (c :: cs) then
        offset :: occurrences symbol (symbol.length - 1) (offset + c.utf8Size) cs
      else occurrences symbol 0 (offset + c.utf8Size) cs

/-- The blanks of Unicode (`White_Space`). -/
def isBlank (c : Char) : Bool :=
  let n := c.toNat
  (9 ≤ n && n ≤ 13) || n == 32 || n == 0x85 || n == 0xA0 || n == 0x1680 ||
    (0x2000 ≤ n && n ≤ 0x200A) || n == 0x2028 || n == 0x2029 || n == 0x202F || n == 0x205F ||
    n == 0x3000

/-- Removes blanks at both ends. -/
def trim (cs : List Char) : List Char :=
  ((cs.dropWhile isBlank).reverse.dropWhile isBlank).reverse

/-- The items with `between` standing between neighbours. -/
def joinWith (between : String) (items : List String) : String := between.intercalate items

/-- A text in back quotes, as messages quote it. -/
def quoted (text : String) : String := s!"`{text}`"

end Reckon.Text
