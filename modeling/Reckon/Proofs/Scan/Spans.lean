import Reckon.Diagnostic
import Reckon.Proofs.Scan.Tokens

/-!
# Spans that fit the text

A span fits a text if it begins and ends between characters; then the text under it can be cut out
(`Span.Fits.covered`).  The span of a token that is written fits (`Dialect.fits_of_mem_tokens`), and
only a call can have an empty name (`Dialect.call_of_text_eq_empty`).
-/

namespace Reckon

open Text

variable {text : List Char} {s t : Span}

/-- The offset lies between two characters of the text or at an end of it. -/
def Text.Boundary (text : List Char) (o : Nat) : Prop :=
  ∃ front back, text = front ++ back ∧ o = width front

/-- The span begins and ends at boundaries. -/
structure Span.Fits (text : List Char) (s : Span) : Prop where
  start : Boundary text s.start
  stop : Boundary text s.stop

/-! ## Stretches under spans -/

theorem Text.width_eq_zero {cs : List Char} (h : width cs = 0) : cs = [] := by
  cases cs with
  | nil => rfl
  | cons c cs =>
    have := c.utf8Size_pos
    rw [width_cons] at h
    omega

theorem Text.width_pos {cs : List Char} (h : cs ≠ []) : 0 < width cs :=
  Nat.pos_of_ne_zero fun hzero => h (Text.width_eq_zero hzero)

namespace Span

/-- There are characters of the text between the ends of a span that fits. -/
theorem Fits.exists_stretch (h : s.Fits text) : ∃ front cs back,
    text = front ++ (cs ++ back) ∧ s.start = width front ∧ s.length = width cs := by
  obtain ⟨⟨front, rest, htext, hstart⟩, ⟨front', back, htext', hstop⟩⟩ := h
  have hordered := s.ordered
  rw [length, hstart, hstop]
  rw [hstart, hstop] at hordered
  rw [htext] at htext'
  obtain ⟨cs, rfl, hrest⟩ | ⟨cs, rfl, hrest⟩ := List.append_eq_append_iff.mp htext'
  · refine ⟨front, cs, back, by rw [htext, hrest], rfl, ?_⟩
    rw [width_append]
    omega
  · -- the span would end before it begins, unless it is empty
    rw [width_append] at hordered
    obtain rfl : cs = [] := Text.width_eq_zero (by omega)
    exact ⟨front', [], rest, by rw [htext, List.append_nil, List.nil_append], by simp, by simp⟩

/-- The text under a span that fits can be cut out. -/
theorem Fits.covered {source : String} (h : s.Fits source.toList) : (s.covered source).isSome := by
  obtain ⟨front, cs, back, htext, hstart, hlength⟩ := h.exists_stretch
  rw [Span.covered, htext, hstart, hlength, dropWidth_append, Option.bind_some, takeWidth_append]
  rfl

theorem Fits.union (hs : s.Fits text) (ht : t.Fits text) : (s.union t).Fits text := by
  constructor
  · show Boundary text (min s.start t.start)
    rcases Nat.le_total s.start t.start with h | h
    · rw [Nat.min_eq_left h]
      exact hs.start
    · rw [Nat.min_eq_right h]
      exact ht.start
  · show Boundary text (max s.stop t.stop)
    rcases Nat.le_total s.stop t.stop with h | h
    · rw [Nat.max_eq_right h]
      exact ht.stop
    · rw [Nat.max_eq_left h]
      exact hs.stop

/-- The bytes of characters that stand in the text fit it. -/
theorem fits_of_standsAt {cs : List Char} {o : Nat} (h : StandsAt cs 0 text o) :
    (ofLength o (width cs)).Fits text := by
  obtain ⟨front, back, rfl, rfl⟩ := h
  rw [Nat.zero_add]
  exact ⟨⟨front, cs ++ back, rfl, rfl⟩,
    ⟨front ++ cs, back, (List.append_assoc ..).symm, (width_append ..).symm⟩⟩

end Span

/-! ## Spans of tokens -/

/-- The token has no place, or its bytes fit the text. -/
def Token.Fits (text : List Char) (t : Token) : Prop := ∀ s ∈ t.span, s.Fits text

theorem Token.fits_placeholder (text : List Char) : placeholder.Fits text := nofun

namespace Dialect

variable {d : Dialect} {source : String} {t : Token}

/-- The token of a claim, if it is written at all, covers its own text. -/
theorem fits_of_mem_claims (hd : d.Distinct) {c : Claim} (hc : c ∈ d.claims text)
    (h : c.token.text ≠ "") : c.token.Fits text := by
  have hcovers := covers_of_mem_claims hd hc
  have hpos : 1 ≤ width c.own := by
    by_contra hzero
    have hnil : c.own = [] := width_eq_zero (by omega)
    exact h (String.toList_eq_nil_iff.mp hnil)
  have hlength : max c.token.text.utf8ByteSize 1 = width c.own := by
    rw [utf8ByteSize_eq_width]
    exact Nat.max_eq_left hpos
  have hown : StandsAt c.own 0 text c.span.start := by
    obtain ⟨front, back, htext, hstart⟩ := hcovers.stands
    exact ⟨front, c.extra d ++ back, by rw [htext, List.append_assoc], hstart⟩
  intro s hs
  rw [Token.span, hcovers.position_eq, Option.map_some, Option.mem_some_iff, hlength] at hs
  rw [← hs]
  exact Span.fits_of_standsAt hown

/-- The token of a text, if it is written at all, covers its own text. -/
theorem fits_of_mem_tokens (hd : d.Distinct) (ht : t ∈ d.tokens source) (h : t.text ≠ "") :
    t.Fits source.toList := by
  obtain ⟨c, hc, rfl | ⟨-, rfl⟩⟩ := exists_claim_of_mem_tokens ht
  · exact fits_of_mem_claims hd hc h
  · exact fits_of_mem_claims hd hc h

theorem mem_callClaims_of_kind {c : Claim} (hc : c ∈ d.claims text) (hk : c.token.kind = .call) :
    c ∈ d.callClaims text := by
  rcases mem_claims hc with hc | hc | hc | hc | hc | ⟨s, hs, hc⟩
  · exact hc
  · rw [kind_of_mem_literalClaims hc] at hk
    cases hk
  · rw [kind_of_mem_identifierClaims hc] at hk
    cases hk
  · rcases kind_of_mem_parenClaims hc with h | h <;> rw [h] at hk <;> cases hk
  · rw [kind_of_mem_ofOccurrences hc] at hk
    cases hk
  · rw [kind_of_mem_ofOccurrences hc] at hk
    rcases kind_of_mem_operatorSymbols hs with h | h <;> rw [h] at hk <;> cases hk

/-- The name of a call is what the pattern for names matches at some place. -/
theorem exists_ends_of_mem_callClaims (hd : d.Distinct) {c : Claim} (hc : c ∈ d.callClaims text) :
    ∃ p q, Regex.Place.In text p ∧ q ∈ d.identifier.ends p ∧
      c.token.text = Regex.Slice.text ⟨p.offset, q.offset, p.rest⟩ := by
  obtain ⟨m, hm, hc⟩ := List.mem_filterMap.mp hc
  rw [hd.call_eq] at hm
  obtain ⟨p, q, back, hin, hq, -, hname, hparen⟩ := Regex.exists_ends_of_mem_findAll_call hm
  rw [hname, hparen] at hc
  dsimp only at hc
  split at hc
  · cases hc
  · rw [← Option.some.inj hc]
    exact ⟨p, q, hin, hq, rfl⟩

/-- A token without text is a call whose name is matched by no characters. -/
theorem call_of_text_eq_empty (hd : d.Distinct) (ht : t ∈ d.tokens source) (h : t.text = "") :
    t.kind = .call ∧ ∃ p q, Regex.Place.In source.toList p ∧ q ∈ d.identifier.ends p ∧
      q.offset = p.offset := by
  obtain ⟨c, hc, hread⟩ := exists_claim_of_mem_tokens ht
  have htext : c.token.text = "" := by
    rcases hread with rfl | ⟨-, rfl⟩ <;> exact h
  have hcovers := covers_of_mem_claims hd hc
  have hpos := (apart_claims d source.toList).pos c hc
  have hcall : c.token.kind = .call := by
    by_contra hk
    have hstop := hcovers.stop_eq
    rw [Claim.own, htext, Claim.extra_of_not_call hk] at hstop
    rw [hstop] at hpos
    exact Nat.lt_irrefl _ hpos
  have hkind : t.kind = .call := by
    rcases hread with rfl | ⟨hk, -⟩
    · exact hcall
    · rw [hcall] at hk
      cases hk
  obtain ⟨p, q, hin, hq, hname⟩ :=
    exists_ends_of_mem_callClaims hd (mem_callClaims_of_kind hc hcall)
  obtain ⟨cs, hslice⟩ := ((Regex.reaches_of_mem_ends d.identifier p q hq).covers hin).2
  have hnil : cs = [] := by
    rw [hname, hslice.text_eq] at htext
    simpa using congrArg String.toList htext
  obtain ⟨front, back, -, hplaces⟩ := hslice
  obtain ⟨hstart, hstop, -⟩ := Regex.Slice.mk.inj hplaces
  refine ⟨hkind, p, q, hin, hq, ?_⟩
  rw [hstart, hstop, hnil, width_nil, Nat.add_zero]

end Dialect

end Reckon
