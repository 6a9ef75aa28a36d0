import Reckon.Proofs.Scan.Tiling
import Reckon.Proofs.Scan.Words

/-!
# Finding marks

A character that stands in no word stands in a text of lexemes where a mark does, or where a call
has its parenthesis.  With the words this makes the claims on such a text: one for each lexeme.
-/

namespace Reckon

open Text

/-! ## Characters with their offsets -/

namespace Text

theorem positioned_append (offset : Nat) (cs ds : List Char) :
    positioned offset (cs ++ ds) = positioned offset cs ++ positioned (offset + width cs) ds := by
  induction cs generalizing offset with
  | nil => simp [positioned]
  | cons c cs ih => simp [positioned, ih, Nat.add_assoc]

theorem mem_of_mem_positioned {offset : Nat} {cs : List Char} {x : Nat × Char}
    (h : x ∈ positioned offset cs) : x.2 ∈ cs := by
  induction cs generalizing offset with
  | nil => cases h
  | cons c cs ih =>
    rcases List.mem_cons.mp h with rfl | h
    · exact List.mem_cons_self
    · exact List.mem_cons_of_mem _ (ih h)

/-- Where a symbol of one character stands. -/
theorem mem_occurrences_singleton {c : Char} {offset o : Nat} {cs : List Char} :
    o ∈ occurrences [c] 0 offset cs ↔ (o, c) ∈ positioned offset cs := by
  induction cs generalizing offset with
  | nil => simp [occurrences, positioned]
  | cons d cs ih =>
    by_cases hc : c = d
    · subst hc
      simp [occurrences, positioned, ih]
    · simp [occurrences, positioned, hc, ih]

end Text

namespace Lexeme

variable {ls : List Lexeme} {l : Lexeme} {n : Name} {m : Mark} {c : Char} {o offset : Nat}

/-! ## Tiles -/

/-- The claims of lexemes, each on its characters. -/
def tiles (offset : Nat) (ls : List Lexeme) : List Claim :=
  (placed offset ls).map fun x => x.2.claim x.1

theorem width_chars_pos (l : Lexeme) : 0 < width l.chars := by
  have hne : l.chars ≠ [] := by
    cases l with
    | number n => exact n.chars_ne_nil
    | name n => exact n.chars_ne_nil
    | call n => simp [chars]
    | mark m => simp [chars, face]
  obtain ⟨c, cs, hc⟩ := List.exists_cons_of_ne_nil hne
  have hpos := c.utf8Size_pos
  rw [hc, width_cons]
  omega

theorem le_of_mem_placed {x : Nat × Lexeme} (h : x ∈ placed offset ls) : offset ≤ x.1 := by
  induction ls generalizing offset with
  | nil => cases h
  | cons l ls ih =>
    rcases List.mem_cons.mp h with rfl | h
    · exact Nat.le_refl _
    · have := ih h
      omega

theorem tiled (offset : Nat) (ls : List Lexeme) : Claim.Tiled (tiles offset ls) := by
  induction ls generalizing offset with
  | nil => exact ⟨by simp [tiles, placed], List.Pairwise.nil⟩
  | cons l ls ih =>
    have hrest := ih (offset + width l.chars)
    constructor
    · intro c hc
      rcases List.mem_cons.mp hc with rfl | hc
      · have := l.width_chars_pos
        simp only [claim, Span.ofLength]
        omega
      · exact hrest.pos c hc
    · refine List.pairwise_cons.mpr ⟨fun c hc => ?_, hrest.ordered⟩
      obtain ⟨x, hx, rfl⟩ := List.mem_map.mp hc
      exact le_of_mem_placed hx

/-! ## Characters of lexemes -/

/-- Characters of a text belong to one of its lexemes. -/
theorem mem_positioned_text {x : Nat × Char} : x ∈ positioned offset (text ls) ↔
    ∃ y ∈ placed offset ls, x ∈ positioned y.1 y.2.chars := by
  induction ls generalizing offset with
  | nil => simp [positioned, placed]
  | cons l ls ih => simp [positioned_append, placed, ih]

/-- A character that stands in no word is a mark, or the parenthesis of a call. -/
theorem mem_positioned_chars (hword : ¬ Text.isWord c) (hdot : c ≠ '.') :
    (o, c) ∈ positioned offset l.chars ↔
      (∃ m, l = mark m ∧ o = offset ∧ c = m.char) ∨
        ∃ n, l = call n ∧ o = offset + width n.chars ∧ c = '(' := by
  have hname : ∀ n : Name, (o, c) ∉ positioned offset n.chars :=
    fun n h => hword (n.isWord_of_mem (mem_of_mem_positioned h))
  cases l with
  | number n =>
    have hnot : (o, c) ∉ positioned offset n.chars := by
      intro h
      rcases n.digit_or_point (mem_of_mem_positioned h) with h | h
      · exact hword (Standard.isWord_of_digit h)
      · exact hdot h
    simpa [chars, face] using hnot
  | name n => simpa [chars, face] using hname n
  | call n =>
    rw [chars, positioned_append, List.mem_append, or_iff_right (hname n)]
    simp [positioned]
  | mark m => simp [chars, face, positioned]

theorem mem_positioned_text_of_mark (hword : ¬ Text.isWord c) (hdot : c ≠ '.') :
    (o, c) ∈ positioned offset (text ls) ↔
      (∃ m, (o, mark m) ∈ placed offset ls ∧ c = m.char) ∨
        ∃ n o', (o', call n) ∈ placed offset ls ∧ o = o' + width n.chars ∧ c = '(' := by
  rw [mem_positioned_text]
  constructor
  · rintro ⟨⟨o', l⟩, hl, hc⟩
    rcases (mem_positioned_chars hword hdot).mp hc with ⟨m, rfl, rfl, rfl⟩ | ⟨n, rfl, rfl, rfl⟩
    · exact .inl ⟨m, hl, rfl⟩
    · exact .inr ⟨n, o', hl, rfl, rfl⟩
  · rintro (⟨m, hm, rfl⟩ | ⟨n, o', hn, rfl, rfl⟩)
    · exact ⟨_, hm, (mem_positioned_chars hword hdot).mpr (.inl ⟨m, rfl, rfl, rfl⟩)⟩
    · exact ⟨_, hn, (mem_positioned_chars hword hdot).mpr (.inr ⟨n, rfl, rfl, rfl⟩)⟩

/-! ## Claims on marks -/

/-- The claim on a mark at an offset. -/
def markClaim (o : Nat) (m : Mark) : Claim :=
  Claim.ofSymbol m.scannedKind (String.singleton m.char) o

theorem markClaim_eq (o : Nat) (m : Mark) : markClaim o m = claim o (mark m) := by
  rw [markClaim, Claim.ofSymbol, String.utf8ByteSize_singleton, String.singleton_eq_ofList]
  rfl

/-- How a mark is scanned depends on its character only. -/
theorem markClaim_of_char {m m' : Mark} (h : m.char = m'.char) (o : Nat) :
    markClaim o m = markClaim o m' := by
  have hkind : ∀ m : Mark, m.scannedKind =
      (match m.char with
      | '(' => .opening
      | ')' => .closing
      | ',' => .separator
      | '!' => .unary
      | _ => .operator) := by
    intro m
    cases m with
    | binary op => cases op <;> rfl
    | _ => rfl
  rw [markClaim, markClaim, hkind m, hkind m', h]

theorem mem_parenClaims {text : List Char} {x : Claim} :
    x ∈ Dialect.standard.parenClaims text ↔
      ∃ m o, (m = .opening ∨ m = .closing) ∧ (o, m.char) ∈ positioned 0 text ∧ x = markClaim o m := by
  rw [Dialect.parenClaims, List.mem_filterMap]
  constructor
  · rintro ⟨⟨o, c⟩, hc, hx⟩
    dsimp only at hx
    split at hx
    · rename_i hopen
      obtain rfl : c = Mark.opening.char := hopen
      exact ⟨.opening, o, .inl rfl, hc, (Option.some.inj hx).symm⟩
    · split at hx
      · rename_i hclose
        obtain rfl : c = Mark.closing.char := hclose
        exact ⟨.closing, o, .inr rfl, hc, (Option.some.inj hx).symm⟩
      · cases hx
  · rintro ⟨m, o, rfl | rfl, hc, rfl⟩
    · exact ⟨_, hc, rfl⟩
    · exact ⟨_, hc, rfl⟩

theorem mem_operatorSymbols {s : String × TokenKind} : s ∈ Dialect.standard.operatorSymbols ↔
    ∃ m : Mark, (m.kind = .operator ∨ m.kind = .unary) ∧
      s = (String.singleton m.char, m.scannedKind) := by
  rw [Dialect.operatorSymbols, List.mem_mergeSort]
  constructor
  · intro h
    have hcases : s = ("+", .operator) ∨ s = ("-", .operator) ∨ s = ("*", .operator) ∨
        s = ("/", .operator) ∨ s = ("%", .operator) ∨ s = ("^", .operator) ∨ s = ("!", .unary) := by
      simpa [Dialect.standard, Dialect.Spec.standard, Dialect.operator?] using h
    rcases hcases with rfl | rfl | rfl | rfl | rfl | rfl | rfl
    · exact ⟨.binary .plus, .inl rfl, rfl⟩
    · exact ⟨.binary .minus, .inl rfl, rfl⟩
    · exact ⟨.binary .times, .inl rfl, rfl⟩
    · exact ⟨.binary .divide, .inl rfl, rfl⟩
    · exact ⟨.binary .remainder, .inl rfl, rfl⟩
    · exact ⟨.binary .power, .inl rfl, rfl⟩
    · exact ⟨.factorial, .inr rfl, rfl⟩
  · rintro ⟨m, hm, rfl⟩
    cases m with
    | binary op => cases op <;> decide
    | opening | closing | separator => simp [Mark.kind] at hm
    | sign | factorial => decide

theorem mem_ofOccurrences {text : List Char} {x : Claim} {m : Mark} :
    x ∈ Claim.ofOccurrences text m.scannedKind (String.singleton m.char) ↔
      ∃ o, (o, m.char) ∈ positioned 0 text ∧ x = markClaim o m := by
  rw [Claim.ofOccurrences, String.toList_singleton, List.mem_map]
  constructor
  · rintro ⟨o, ho, rfl⟩
    exact ⟨o, mem_occurrences_singleton.mp ho, rfl⟩
  · rintro ⟨o, ho, rfl⟩
    exact ⟨o, mem_occurrences_singleton.mpr ho, rfl⟩

/-- Parentheses, separators and operators together are claimed wherever a mark's character
stands. -/
theorem mem_markClaims {text : List Char} {x : Claim} :
    (x ∈ Dialect.standard.parenClaims text ∨
      x ∈ Claim.ofOccurrences text .separator Dialect.standard.separator ∨
      ∃ s ∈ Dialect.standard.operatorSymbols, x ∈ Claim.ofOccurrences text s.2 s.1) ↔
      ∃ m o, (o, m.char) ∈ positioned 0 text ∧ x = markClaim o m := by
  have hsep : x ∈ Claim.ofOccurrences text .separator Dialect.standard.separator ↔
      ∃ o, (o, Mark.separator.char) ∈ positioned 0 text ∧ x = markClaim o .separator :=
    mem_ofOccurrences (m := .separator)
  rw [hsep]
  constructor
  · rintro (h | ⟨o, hc, hx⟩ | ⟨s, hs, hx⟩)
    · obtain ⟨m, o, -, hc, hx⟩ := mem_parenClaims.mp h
      exact ⟨m, o, hc, hx⟩
    · exact ⟨.separator, o, hc, hx⟩
    · obtain ⟨m, -, rfl⟩ := mem_operatorSymbols.mp hs
      obtain ⟨o, hc, hx⟩ := mem_ofOccurrences.mp hx
      exact ⟨m, o, hc, hx⟩
  · rintro ⟨m, o, hc, hx⟩
    have hop : m.kind = .operator ∨ m.kind = .unary →
        ∃ s ∈ Dialect.standard.operatorSymbols, x ∈ Claim.ofOccurrences text s.2 s.1 :=
      fun hk => ⟨_, mem_operatorSymbols.mpr ⟨m, hk, rfl⟩, mem_ofOccurrences.mpr ⟨o, hc, hx⟩⟩
    cases m with
    | opening => exact .inl (mem_parenClaims.mpr ⟨_, o, .inl rfl, hc, hx⟩)
    | closing => exact .inl (mem_parenClaims.mpr ⟨_, o, .inr rfl, hc, hx⟩)
    | separator => exact .inr (.inl ⟨o, hc, hx⟩)
    | binary op => exact .inr (.inr (hop (.inl rfl)))
    | sign => exact .inr (.inr (hop (.inr rfl)))
    | factorial => exact .inr (.inr (hop (.inr rfl)))

/-- The claims behind those of calls: on numbers, on names and on every mark. -/
theorem mem_laterClaims {x : Claim} (h : Separated ls) :
    x ∈ Dialect.standard.laterClaims (text ls) ↔
      (∃ y ∈ placed 0 ls, x ∈ numbers y.1 y.2) ∨ (∃ y ∈ placed 0 ls, x ∈ names y.1 y.2) ∨
        ∃ m o, (o, m.char) ∈ positioned 0 (text ls) ∧ x = markClaim o m := by
  rw [← mem_markClaims, Dialect.laterClaims, literalClaims_text h, identifierClaims_text h]
  simp only [List.mem_append, List.mem_flatMap, or_assoc]

/-! ## All claims -/

/-- The claim of a call overlaps what lies inside the call. -/
theorem overlaps_call {s : Span} (hstart : o ≤ s.start) (hstop : s.start ≤ o + width n.chars)
    (hpos : s.start < s.stop) : (claim o (call n)).span.overlaps s := by
  have hwidth : width (call n).chars = width n.chars + 1 := by
    simp only [chars, width_append]
    rfl
  simp only [Span.overlaps, claim, Span.ofLength, hwidth, Bool.and_eq_true, decide_eq_true_eq]
  omega

/-- The claims on a text of lexemes are its tiles. -/
theorem perm_claims (h : Separated ls) : (Dialect.standard.claims (text ls)).Perm (tiles 0 ls) := by
  have hcall : ∀ {n o}, (o, call n) ∈ placed 0 ls →
      claim o (call n) ∈ Dialect.standard.callClaims (text ls) := by
    intro n o hn
    rw [callClaims_text h]
    exact List.mem_flatMap.mpr ⟨_, hn, List.mem_singleton_self _⟩
  have htile : ∀ {l o}, (o, l) ∈ placed 0 ls → claim o l ∈ tiles 0 ls :=
    fun hl => List.mem_map.mpr ⟨_, hl, rfl⟩
  rw [Dialect.claims_eq_addAll]
  refine (tiled 0 ls).perm_addAll ?_ ?_ ?_
  · intro c hc
    rw [callClaims_text h] at hc
    obtain ⟨⟨o, l⟩, hl, hc⟩ := List.mem_flatMap.mp hc
    cases l with
    | call n =>
      rw [List.mem_singleton.mp hc]
      exact htile hl
    | _ => cases hc
  · intro c hc
    rcases (mem_laterClaims h).mp hc with ⟨⟨o, l⟩, hl, hc⟩ | ⟨⟨o, l⟩, hl, hc⟩ | ⟨m, o, hm, rfl⟩
    · cases l with
      | number n =>
        rw [List.mem_singleton.mp hc]
        exact .inl (htile hl)
      | _ => cases hc
    · cases l with
      | name n =>
        rw [List.mem_singleton.mp hc]
        exact .inl (htile hl)
      | call n =>
        -- a call wins over its name
        rw [List.mem_singleton.mp hc]
        have hpos := (name n).width_chars_pos
        exact .inr ⟨_, hcall hl, overlaps_call (Nat.le_refl o) (Nat.le_add_right _ _)
          (Nat.lt_add_of_pos_right hpos)⟩
      | _ => cases hc
    · rcases (mem_positioned_text_of_mark m.not_isWord m.char_ne.2).mp hm with
        ⟨m', hm', hchar⟩ | ⟨n, o', hn, rfl, hchar⟩
      · rw [markClaim_of_char hchar, markClaim_eq]
        exact .inl (htile hm')
      · have hpos := (mark m).width_chars_pos
        rw [markClaim_eq]
        exact .inr ⟨_, hcall hn, overlaps_call (Nat.le_add_right _ _) (Nat.le_refl _)
          (Nat.lt_add_of_pos_right hpos)⟩
  · intro c hc
    obtain ⟨⟨o, l⟩, hl, rfl⟩ := List.mem_map.mp hc
    rw [mem_laterClaims h]
    cases l with
    | call n => exact .inl (hcall hl)
    | number n => exact .inr (.inl ⟨_, hl, List.mem_singleton_self _⟩)
    | name n => exact .inr (.inr (.inl ⟨_, hl, List.mem_singleton_self _⟩))
    | mark m =>
      have hm := (mem_positioned_text_of_mark m.not_isWord m.char_ne.2).mpr (.inl ⟨m, hl, rfl⟩)
      exact .inr (.inr (.inr ⟨m, o, hm, (markClaim_eq o m).symm⟩))

end Lexeme

end Reckon
