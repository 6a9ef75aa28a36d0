import Reckon.Proofs.Dialect
import Reckon.Proofs.Regex.Slices
import Reckon.Proofs.Scan.Claims

/-!
# Stretches of the text

Every claim on a text covers the characters that its token is written with; the claim of a call
covers its parenthesis as well (`Claim.Covers`).  So no claim begins or ends inside a character, and
a claim that overlaps a character covers it.
-/

namespace Reckon

/-! ## Offsets -/

namespace Text

variable {cs text symbol : List Char} {c : Char} {o offset : Nat}

theorem utf8ByteSize_ofList (cs : List Char) : (String.ofList cs).utf8ByteSize = width cs := by
  induction cs with
  | nil => rfl
  | cons c cs ih =>
    have hsplit : String.ofList (c :: cs) = String.singleton c ++ String.ofList cs := by
      rw [String.singleton_eq_ofList, ← String.ofList_append]
      rfl
    rw [hsplit, String.utf8ByteSize_append, String.utf8ByteSize_singleton, ih, width_cons]

theorem utf8ByteSize_eq_width (s : String) : s.utf8ByteSize = width s.toList := by
  rw [← utf8ByteSize_ofList, String.ofList_toList]

/-- In `cs`, which begins at `offset`, the characters `symbol` stand at `o`. -/
def StandsAt (symbol : List Char) (offset : Nat) (cs : List Char) (o : Nat) : Prop :=
  ∃ front back, cs = front ++ (symbol ++ back) ∧ o = offset + width front

theorem StandsAt.cons (h : StandsAt symbol (offset + c.utf8Size) cs o) :
    StandsAt symbol offset (c :: cs) o := by
  obtain ⟨front, back, rfl, rfl⟩ := h
  exact ⟨c :: front, back, rfl, by rw [width_cons, Nat.add_assoc]⟩

theorem mem_positioned_iff : (o, c) ∈ positioned offset cs ↔ StandsAt [c] offset cs o := by
  induction cs generalizing offset with
  | nil =>
    refine ⟨fun h => (nomatch h), ?_⟩
    rintro ⟨front, back, h, -⟩
    cases front <;> cases h
  | cons d cs ih =>
    rw [positioned, List.mem_cons, ih]
    constructor
    · rintro (h | h)
      · obtain ⟨rfl, rfl⟩ := Prod.mk.inj h
        exact ⟨[], cs, rfl, rfl⟩
      · exact h.cons
    · rintro ⟨front, back, hcs, rfl⟩
      cases front with
      | nil =>
        obtain ⟨rfl, -⟩ := List.cons.inj hcs
        exact .inl rfl
      | cons e front =>
        obtain ⟨rfl, rfl⟩ := List.cons.inj hcs
        exact .inr ⟨front, back, rfl, by rw [width_cons, Nat.add_assoc]⟩

theorem standsAt_of_mem_occurrences {skip : Nat} (h : o ∈ occurrences symbol skip offset cs) :
    StandsAt symbol offset cs o := by
  induction cs generalizing skip offset with
  | nil => cases h
  | cons d ds ih =>
    cases skip with
    | succ skip =>
      rw [occurrences] at h
      exact (ih h).cons
    | zero =>
      rw [occurrences] at h
      split at h
      · rename_i hprefix
        rcases List.mem_cons.mp h with rfl | h
        · obtain ⟨back, hback⟩ := List.isPrefixOf_iff_prefix.mp hprefix
          exact ⟨[], back, hback.symm, rfl⟩
        · exact (ih h).cons
      · exact (ih h).cons

/-- A character that overlaps other characters of the text is one of them. -/
theorem StandsAt.of_overlap {xs : List Char} {a : Nat} (hc : StandsAt [c] offset text o)
    (hxs : StandsAt xs offset text a) (hlt : o < a + width xs) (hgt : a < o + c.utf8Size) :
    StandsAt [c] a xs o := by
  obtain ⟨front, back, htext, rfl⟩ := hc
  obtain ⟨front', back', htext', rfl⟩ := hxs
  rw [htext, List.singleton_append] at htext'
  obtain ⟨between, rfl, hrest⟩ | ⟨between, rfl, hrest⟩ := List.append_eq_append_iff.mp htext'
  · -- the characters do not begin before `c`, and not behind it either
    cases between with
    | nil =>
      cases xs with
      | nil =>
        rw [width_nil] at hlt
        simp at hlt
      | cons d xs =>
        obtain ⟨rfl, -⟩ := List.cons.inj hrest
        exact ⟨[], xs, rfl, by simp⟩
    | cons d between =>
      obtain ⟨rfl, -⟩ := List.cons.inj hrest
      rw [width_append, width_cons] at hgt
      omega
  · rw [width_append] at hlt ⊢
    obtain ⟨beyond, rfl, -⟩ | ⟨inner, rfl, hinner⟩ := List.append_eq_append_iff.mp hrest
    · -- the characters end before `c`
      rw [width_append] at hlt
      omega
    · cases inner with
      | nil =>
        rw [List.append_nil] at hlt
        omega
      | cons d inner =>
        obtain ⟨rfl, -⟩ := List.cons.inj hinner
        exact ⟨between, inner, rfl, by rw [Nat.add_assoc]⟩

theorem StandsAt.mem {xs : List Char} {a : Nat} (h : StandsAt [c] a xs o) : c ∈ xs := by
  obtain ⟨front, back, rfl, -⟩ := h
  simp

end Text

/-! ## What claims cover -/

namespace Claim

open Text

variable {text : List Char} {c : Claim}

/-- The characters that the token is written with. -/
def own (c : Claim) : List Char := c.token.text.toList

/-- What belongs to the token besides: the parenthesis of a call. -/
def extra (d : Dialect) (c : Claim) : List Char :=
  if c.token.kind = .call then [d.opening] else []

/-- The claim is on the place where its token and what belongs to it stand in the text. -/
structure Covers (d : Dialect) (text : List Char) (c : Claim) : Prop where
  stands : StandsAt (c.own ++ c.extra d) 0 text c.span.start
  position_eq : c.token.position = some c.span.start
  stop_eq : c.span.stop = c.span.start + width (c.own ++ c.extra d)

theorem extra_of_not_call {d : Dialect} (h : c.token.kind ≠ .call) : c.extra d = [] := if_neg h

theorem covers_ofSlice {d : Dialect} {kind : TokenKind} {s : Regex.Slice} {cs : List Char}
    (hk : kind ≠ .call) (h : s.Covers text cs) : (ofSlice kind s).Covers d text := by
  have htext := h.text_eq
  obtain ⟨front, back, rfl, rfl⟩ := h
  have hextra : extra d (ofSlice kind ⟨width front, width front + width cs, cs ++ back⟩) = [] :=
    extra_of_not_call hk
  have hown : own (ofSlice kind ⟨width front, width front + width cs, cs ++ back⟩) = cs := by
    rw [own, ofSlice, htext, String.toList_ofList]
  refine ⟨?_, ?_, ?_⟩
  · rw [hown, hextra, List.append_nil]
    exact ⟨front, back, rfl, by simp [ofSlice, Span.between]⟩
  · simp [ofSlice, Span.between]
  · rw [hown, hextra, List.append_nil]
    simp [ofSlice, Span.between]

theorem covers_ofSymbol {d : Dialect} {kind : TokenKind} {symbol : String} {o : Nat}
    (hk : kind ≠ .call) (h : StandsAt symbol.toList 0 text o) :
    (ofSymbol kind symbol o).Covers d text := by
  have hextra : extra d (ofSymbol kind symbol o) = [] := extra_of_not_call hk
  refine ⟨?_, rfl, ?_⟩
  · rw [hextra, List.append_nil]
    exact h
  · rw [hextra, List.append_nil]
    simp [ofSymbol, Span.ofLength, own, utf8ByteSize_eq_width]

end Claim

namespace Dialect

open Text

variable {d : Dialect} {text : List Char} {c : Claim}

theorem covers_of_mem_callClaims (hd : d.Distinct) (h : c ∈ d.callClaims text) :
    c.Covers d text := by
  obtain ⟨m, hm, hc⟩ := List.mem_filterMap.mp h
  rw [hd.call_eq] at hm
  obtain ⟨front, cs, back, htext, hname, hparen⟩ := Regex.exists_covers_of_mem_findAll_call hm
  have hcs : Regex.Slice.text ⟨width front, width front + width cs, cs ++ d.opening :: back⟩ =
      String.ofList cs := Regex.Slice.Covers.text_eq ⟨front, d.opening :: back, htext, rfl⟩
  rw [hname, hparen] at hc
  dsimp only at hc
  split at hc
  · cases hc
  · rw [← Option.some.inj hc, hcs]
    have hstart : min (width front) (width front + width cs + d.opening.utf8Size) =
        width front := by omega
    have hstop : max (width front) (width front + width cs + d.opening.utf8Size) =
        width front + width (cs ++ [d.opening]) := by simp; omega
    refine ⟨⟨front, back, ?_, ?_⟩, ?_, ?_⟩
    · simp [Claim.own, Claim.extra, htext]
    · simp [Span.between, hstart]
    · simp [Span.between, hstart]
    · simp only [Claim.own, Claim.extra, if_true, String.toList_ofList, Span.between, hstart,
        hstop]

theorem covers_of_mem_parenClaims (h : c ∈ d.parenClaims text) : c.Covers d text := by
  obtain ⟨⟨o, e⟩, ho, hc⟩ := List.mem_filterMap.mp h
  rw [mem_positioned_iff] at ho
  have hsymbol : ∀ {kind : TokenKind}, kind ≠ .call →
      (Claim.ofSymbol kind e.toString o).Covers d text := by
    intro kind hk
    exact Claim.covers_ofSymbol hk (by simpa using ho)
  dsimp only at hc
  split at hc
  · rw [← Option.some.inj hc]
    exact hsymbol (by decide)
  · split at hc
    · rw [← Option.some.inj hc]
      exact hsymbol (by decide)
    · cases hc

theorem covers_of_mem_ofOccurrences {kind : TokenKind} {symbol : String} (hk : kind ≠ .call)
    (h : c ∈ Claim.ofOccurrences text kind symbol) : c.Covers d text := by
  obtain ⟨o, ho, rfl⟩ := List.mem_map.mp h
  exact Claim.covers_ofSymbol hk (standsAt_of_mem_occurrences ho)

/-- Every claim covers the characters of its token. -/
theorem covers_of_mem_claims (hd : d.Distinct) (h : c ∈ d.claims text) : c.Covers d text := by
  rcases mem_claims h with h | h | h | h | h | ⟨s, hs, h⟩
  · exact covers_of_mem_callClaims hd h
  · obtain ⟨m, hm, rfl⟩ := List.mem_map.mp h
    obtain ⟨cs, hcs⟩ := Regex.exists_covers_of_mem_findAll hm
    exact Claim.covers_ofSlice (by decide) hcs
  · obtain ⟨m, hm, hc⟩ := List.mem_filterMap.mp h
    obtain ⟨cs, hcs⟩ := Regex.exists_covers_of_mem_findAll hm
    split at hc
    · cases hc
    · rw [← Option.some.inj hc]
      exact Claim.covers_ofSlice (by decide) hcs
  · exact covers_of_mem_parenClaims h
  · exact covers_of_mem_ofOccurrences (by decide) h
  · refine covers_of_mem_ofOccurrences ?_ h
    rcases kind_of_mem_operatorSymbols hs with hk | hk <;> rw [hk] <;> decide

end Dialect

end Reckon
