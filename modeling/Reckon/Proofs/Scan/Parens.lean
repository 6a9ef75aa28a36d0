import Reckon.Check.Parens
import Reckon.Proofs.Scan.Tokens

/-!
# Parentheses of the text and of its tokens

Unless words hold parentheses, every parenthesis of a text belongs to exactly one token: it is one,
or it stands behind the name of a call.  So the parentheses of the tokens are those of the text, in
the same order.
-/

namespace Reckon

open Text

/-! ## Offsets -/

namespace Text

variable {xs ys cs : List Char} {c e : Char} {o a offset : Nat}

theorem StandsAt.right (h : StandsAt (xs ++ ys) offset cs o) :
    StandsAt ys offset cs (o + width xs) := by
  obtain ⟨front, back, rfl, rfl⟩ := h
  exact ⟨front ++ xs, back, by simp, by rw [width_append, Nat.add_assoc]⟩

theorem StandsAt.singleton (h : StandsAt [c] a [e] o) : c = e ∧ o = a := by
  obtain ⟨front, back, h, rfl⟩ := h
  cases front with
  | nil =>
    obtain ⟨rfl, -⟩ := List.cons.inj h
    exact ⟨rfl, rfl⟩
  | cons d front =>
    have hlen := congrArg List.length h
    simp at hlen

/-- A character of `xs` with `e` behind it is one of `xs`, or it is the `e`. -/
theorem StandsAt.mem_or_last (h : StandsAt [c] a (xs ++ [e]) o) :
    c ∈ xs ∨ c = e ∧ o = a + width xs := by
  obtain ⟨front, back, h, rfl⟩ := h
  rw [List.singleton_append] at h
  rcases List.eq_nil_or_concat back with rfl | ⟨back, d, rfl⟩
  · obtain ⟨rfl, hlast⟩ := List.append_inj' h rfl
    exact .inr ⟨(List.singleton_inj.mp hlast).symm, rfl⟩
  · rw [List.concat_eq_append, ← List.cons_append, ← List.append_assoc] at h
    obtain ⟨rfl, -⟩ := List.append_inj' h rfl
    exact .inl (by simp)

theorem pairwise_positioned (offset : Nat) (cs : List Char) :
    (positioned offset cs).Pairwise fun x y => x.1 < y.1 := by
  induction cs generalizing offset with
  | nil => exact List.Pairwise.nil
  | cons c cs ih =>
    refine List.pairwise_cons.mpr ⟨?_, ih _⟩
    rintro ⟨o, e⟩ h
    obtain ⟨front, back, -, rfl⟩ := mem_positioned_iff.mp h
    have := c.utf8Size_pos
    show offset < offset + c.utf8Size + width front
    omega

end Text

/-! ## Parentheses -/

namespace Paren

variable {d : Dialect} {text : List Char} {p : Paren} {ps qs : List Paren}

/-- The parenthesis of a token: the token itself, or the one behind the name of a call. -/
def ofToken? (d : Dialect) (t : Token) : Option Paren :=
  match t.kind with
  | .opening => t.position.map fun o => ⟨.opening, d.opening, o⟩
  | .closing => t.position.map fun o => ⟨.closing, d.closing, o⟩
  | .call => t.position.map fun o => ⟨.opening, d.opening, o + t.text.utf8ByteSize⟩
  | .literal | .identifier | .operator | .unary | .separator | .missing => none

/-- How the dialect writes a side. -/
def symbolOf (d : Dialect) : ParenSide → Char
  | .opening => d.opening
  | .closing => d.closing

/-- The kind of the token that a parenthesis is by itself. -/
def kindOf : ParenSide → TokenKind
  | .opening => .opening
  | .closing => .closing

theorem eq_of_symbolOf (hd : d.Distinct) {a b : ParenSide} (h : symbolOf d a = symbolOf d b) :
    a = b := by
  cases a <;> cases b
  · rfl
  · exact absurd h hd.parens_ne
  · exact absurd h.symm hd.parens_ne
  · rfl

theorem mem_inText (hd : d.Distinct) : p ∈ inText d text ↔
    p.symbol = symbolOf d p.side ∧ StandsAt [p.symbol] 0 text p.position := by
  rw [inText, List.mem_filterMap]
  constructor
  · rintro ⟨⟨o, e⟩, ho, h⟩
    rw [mem_positioned_iff] at ho
    dsimp only at h
    split at h
    · rename_i he
      cases h
      exact ⟨he, ho⟩
    · split at h
      · rename_i he
        cases h
        exact ⟨he, ho⟩
      · cases h
  · obtain ⟨side, symbol, o⟩ := p
    rintro ⟨hsymbol, ho⟩
    have hsymbol : symbol = symbolOf d side := hsymbol
    subst hsymbol
    refine ⟨(o, symbolOf d side), mem_positioned_iff.mpr ho, ?_⟩
    cases side with
    | opening => simp [symbolOf]
    | closing => simp [symbolOf, hd.parens_ne.symm]

theorem pairwise_inText (d : Dialect) (text : List Char) :
    (inText d text).Pairwise fun p q => p.position < q.position := by
  refine (pairwise_positioned 0 text).filterMap _ ?_
  rintro ⟨o, e⟩ ⟨o', e'⟩ hlt p hp q hq
  dsimp only at hp hq
  have hposition : ∀ {o : Nat} {e : Char} {p : Paren},
      (if e = d.opening then some (Paren.mk .opening e o)
        else if e = d.closing then some (Paren.mk .closing e o) else none) = some p →
      p.position = o := by
    intro o e p h
    split at h
    · cases h
      rfl
    · split at h
      · cases h
        rfl
      · cases h
  rw [hposition hp, hposition hq]
  exact hlt

/-- Parentheses in the order of the text are told by which they are. -/
theorem eq_of_mem_iff (hps : ps.Pairwise fun p q => p.position < q.position)
    (hqs : qs.Pairwise fun p q => p.position < q.position) (h : ∀ p, p ∈ ps ↔ p ∈ qs) :
    ps = qs := by
  have hnodup : ∀ {rs : List Paren}, rs.Pairwise (fun p q => p.position < q.position) →
      rs.Nodup := fun hrs => hrs.imp fun hlt heq => by rw [heq] at hlt; omega
  have hperm := (List.perm_ext_iff_of_nodup (hnodup hps) (hnodup hqs)).mpr h
  refine List.Perm.eq_of_pairwise ?_ hps hqs hperm
  intro p q _ _ hpq hqp
  omega

end Paren

/-! ## Claims -/

namespace Dialect

variable {d : Dialect} {text : List Char} {c : Claim} {p : Paren}

/-- No word among the tokens holds a parenthesis. -/
def FreeWords (d : Dialect) (ts : List Token) : Prop :=
  ∀ t ∈ ts, t.kind = .literal ∨ t.kind = .identifier ∨ t.kind = .call →
    d.opening ∉ t.text.toList ∧ d.closing ∉ t.text.toList

theorem mem_parenClaims (hd : d.Distinct) : c ∈ d.parenClaims text ↔ ∃ side o,
    StandsAt [Paren.symbolOf d side] 0 text o ∧
      c = Claim.ofSymbol (Paren.kindOf side) (Paren.symbolOf d side).toString o := by
  rw [parenClaims, List.mem_filterMap]
  constructor
  · rintro ⟨⟨o, e⟩, ho, h⟩
    rw [mem_positioned_iff] at ho
    dsimp only at h
    split at h
    · rename_i he
      subst he
      exact ⟨.opening, o, ho, (Option.some.inj h).symm⟩
    · split at h
      · rename_i he
        subst he
        exact ⟨.closing, o, ho, (Option.some.inj h).symm⟩
      · cases h
  · rintro ⟨side, o, ho, rfl⟩
    refine ⟨(o, Paren.symbolOf d side), mem_positioned_iff.mpr ho, ?_⟩
    cases side with
    | opening => simp [Paren.symbolOf, Paren.kindOf]
    | closing => simp [Paren.symbolOf, Paren.kindOf, hd.parens_ne.symm]

theorem ofToken?_ofSymbol (d : Dialect) (side : ParenSide) (o : Nat) :
    Paren.ofToken? d (Claim.ofSymbol (Paren.kindOf side) (Paren.symbolOf d side).toString o).token =
      some ⟨side, Paren.symbolOf d side, o⟩ := by
  cases side <;> rfl

theorem utf8ByteSize_toString (e : Char) : e.toString.utf8ByteSize = e.utf8Size :=
  String.utf8ByteSize_singleton

theorem own_ofSymbol (kind : TokenKind) (e : Char) (o : Nat) :
    (Claim.ofSymbol kind e.toString o).own = [e] := by
  simp [Claim.own, Claim.ofSymbol]

/-- Only parentheses and calls have a parenthesis. -/
theorem ofToken?_eq_none {t : Token} (ho : t.kind ≠ .opening) (hc : t.kind ≠ .closing)
    (hcall : t.kind ≠ .call) : Paren.ofToken? d t = none := by
  cases hk : t.kind <;> simp_all [Paren.ofToken?]

/-- The parenthesis of a call stands behind its name. -/
theorem ofToken?_of_mem_callClaims (hd : d.Distinct) (hc : c ∈ d.callClaims text) :
    c.extra d = [d.opening] ∧
      Paren.ofToken? d c.token = some ⟨.opening, d.opening, c.span.start + width c.own⟩ := by
  have hk := kind_of_mem_callClaims hc
  have hposition := (covers_of_mem_callClaims hd hc).position_eq
  refine ⟨if_pos hk, ?_⟩
  simp [Paren.ofToken?, hk, hposition, Claim.own, utf8ByteSize_eq_width]

/-- A token with a parenthesis comes from a call or is the parenthesis. -/
theorem mem_callClaims_or_mem_parenClaims (hc : c ∈ d.claims text)
    (h : Paren.ofToken? d c.token = some p) : c ∈ d.callClaims text ∨ c ∈ d.parenClaims text := by
  have hother : ∀ kind, c.token.kind = kind → kind ≠ .opening → kind ≠ .closing → kind ≠ .call →
      False := by
    rintro kind rfl ho hclosing hcall
    rw [ofToken?_eq_none ho hclosing hcall] at h
    cases h
  rcases mem_claims hc with hc | hc | hc | hc | hc | ⟨s, hs, hc⟩
  · exact .inl hc
  · exact (hother _ (kind_of_mem_literalClaims hc) (by decide) (by decide) (by decide)).elim
  · exact (hother _ (kind_of_mem_identifierClaims hc) (by decide) (by decide) (by decide)).elim
  · exact .inr hc
  · exact (hother _ (kind_of_mem_ofOccurrences hc) (by decide) (by decide) (by decide)).elim
  · have hk := kind_of_mem_ofOccurrences hc
    rcases kind_of_mem_operatorSymbols hs with hs | hs
    · exact (hother _ (hk.trans hs) (by decide) (by decide) (by decide)).elim
    · exact (hother _ (hk.trans hs) (by decide) (by decide) (by decide)).elim

/-- The parenthesis of a token stands in the text, among the characters that are claimed. -/
theorem mem_inText_of_ofToken? (hd : d.Distinct) (hc : c ∈ d.claims text)
    (h : Paren.ofToken? d c.token = some p) :
    p ∈ Paren.inText d text ∧ c.span.start ≤ p.position ∧ p.position < c.span.stop := by
  have hcovers := covers_of_mem_claims hd hc
  have hstop := hcovers.stop_eq
  rcases mem_callClaims_or_mem_parenClaims hc h with hc | hc
  · obtain ⟨hextra, hparen⟩ := ofToken?_of_mem_callClaims hd hc
    rw [hparen] at h
    cases h
    have hstands := hcovers.stands
    rw [hextra] at hstands hstop
    have hpos := d.opening.utf8Size_pos
    refine ⟨(Paren.mem_inText hd).mpr ⟨rfl, hstands.right⟩, Nat.le_add_right _ _, ?_⟩
    rw [hstop, width_append, width_cons]
    show c.span.start + width c.own < _
    omega
  · obtain ⟨side, o, ho, rfl⟩ := (mem_parenClaims hd).mp hc
    rw [ofToken?_ofSymbol] at h
    cases h
    refine ⟨(Paren.mem_inText hd).mpr ⟨rfl, ho⟩, Nat.le_refl o, ?_⟩
    show o < o + (Paren.symbolOf d side).toString.utf8ByteSize
    have hpos := (Paren.symbolOf d side).utf8Size_pos
    rw [utf8ByteSize_toString]
    omega

/-- A symbol of an operator holds no parenthesis. -/
theorem freeOfParens_of_mem_operatorSymbols (hd : d.Distinct) {s : String × TokenKind}
    (h : s ∈ d.operatorSymbols) : d.FreeOfParens s.1 := by
  rcases exists_of_mem_operatorSymbols h with ⟨-, op, hop, hname⟩ | ⟨-, op, hop, hname⟩
  · exact hname ▸ (hd.operators op hop).1
  · exact hname ▸ (hd.unaries op hop).1

/-- A claim that covers a parenthesis of the text is the claim of its token. -/
theorem ofToken?_of_overlaps (hd : d.Distinct)
    (hfree : d.FreeWords ((d.claims text).map (·.token))) (hc : c ∈ d.claims text) {side : ParenSide}
    {o : Nat} (ho : StandsAt [Paren.symbolOf d side] 0 text o)
    (hov : c.span.overlaps (Claim.ofSymbol (Paren.kindOf side)
      (Paren.symbolOf d side).toString o).span) :
    Paren.ofToken? d c.token = some ⟨side, Paren.symbolOf d side, o⟩ := by
  have hcovers := covers_of_mem_claims hd hc
  have hin : StandsAt [Paren.symbolOf d side] c.span.start (c.own ++ c.extra d) o := by
    rw [Claim.overlaps_iff, hcovers.stop_eq] at hov
    have hov : c.span.start < o + (Paren.symbolOf d side).toString.utf8ByteSize ∧
      o < c.span.start + width (c.own ++ c.extra d) := hov
    rw [utf8ByteSize_toString] at hov
    exact ho.of_overlap hcovers.stands hov.2 hov.1
  -- a word does not hold the parenthesis
  have hword : c.token.kind = .literal ∨ c.token.kind = .identifier ∨ c.token.kind = .call →
      Paren.symbolOf d side ∉ c.own := by
    intro hk
    obtain ⟨hopening, hclosing⟩ := hfree c.token (List.mem_map_of_mem hc) hk
    cases side
    · exact hopening
    · exact hclosing
  have hsymbol : ∀ {kind : TokenKind} {symbol : String}, kind ≠ .call → d.FreeOfParens symbol →
      c ∈ Claim.ofOccurrences text kind symbol → False := by
    intro kind symbol hk hsymbol hmem
    obtain ⟨o', -, rfl⟩ := List.mem_map.mp hmem
    rw [Claim.extra_of_not_call hk, List.append_nil] at hin
    cases side
    · exact hsymbol.opening hin.mem
    · exact hsymbol.closing hin.mem
  rcases mem_claims hc with hc | hc | hc | hc | hc | ⟨s, hs, hc⟩
  · obtain ⟨hextra, hparen⟩ := ofToken?_of_mem_callClaims hd hc
    rw [hextra] at hin
    rcases hin.mem_or_last with hmem | ⟨hlast, rfl⟩
    · exact absurd hmem (hword (.inr (.inr (kind_of_mem_callClaims hc))))
    · rw [hparen, Paren.eq_of_symbolOf hd (b := .opening) hlast]
      rfl
  · have hk := kind_of_mem_literalClaims hc
    rw [Claim.extra_of_not_call (by simp [hk]), List.append_nil] at hin
    exact absurd hin.mem (hword (.inl hk))
  · have hk := kind_of_mem_identifierClaims hc
    rw [Claim.extra_of_not_call (by simp [hk]), List.append_nil] at hin
    exact absurd hin.mem (hword (.inr (.inl hk)))
  · obtain ⟨side', o', -, rfl⟩ := (mem_parenClaims hd).mp hc
    have hkind : Paren.kindOf side' ≠ .call := by cases side' <;> decide
    rw [Claim.extra_of_not_call hkind, List.append_nil, own_ofSymbol] at hin
    obtain ⟨hside, rfl⟩ := hin.singleton
    rw [Paren.eq_of_symbolOf hd hside, ofToken?_ofSymbol]
  · exact (hsymbol (by decide) hd.separator hc).elim
  · refine (hsymbol ?_ (freeOfParens_of_mem_operatorSymbols hd hs) hc).elim
    rcases kind_of_mem_operatorSymbols hs with hk | hk <;> rw [hk] <;> decide

/-- Every parenthesis of the text belongs to a token. -/
theorem exists_ofToken?_of_mem_inText (hd : d.Distinct)
    (hfree : d.FreeWords ((d.claims text).map (·.token))) (h : p ∈ Paren.inText d text) :
    ∃ c ∈ d.claims text, Paren.ofToken? d c.token = some p := by
  obtain ⟨side, symbol, o⟩ := p
  obtain ⟨hsymbol, ho⟩ := (Paren.mem_inText hd).mp h
  have hsymbol : symbol = Paren.symbolOf d side := hsymbol
  subst hsymbol
  have hclaim : Claim.ofSymbol (Paren.kindOf side) (Paren.symbolOf d side).toString o ∈
      d.callClaims text ++ d.laterClaims text := by
    have hmem := (mem_parenClaims hd).mpr ⟨side, o, ho, rfl⟩
    simp only [laterClaims, List.mem_append]
    exact .inr (.inl (.inl (.inr hmem)))
  have hpos : o < o + (Paren.symbolOf d side).toString.utf8ByteSize := by
    have hpos := (Paren.symbolOf d side).utf8Size_pos
    rw [utf8ByteSize_toString]
    omega
  obtain ⟨c, hc, h⟩ := @Claim.exists_overlaps_of_mem [] _ _ hclaim hpos
  rw [← claims_eq_addAll] at hc
  refine ⟨c, hc, ?_⟩
  rcases h with rfl | hov
  · exact ofToken?_ofSymbol d side o
  · exact ofToken?_of_overlaps hd hfree hc ho hov

/-! ## Tokens -/

/-- A parenthesis among the tokens covers the character that it is. -/
theorem span_of_mem_tokens (hd : d.Distinct) {source : String} {t : Token}
    (ht : t ∈ d.tokens source) (hk : t.kind = .opening ∨ t.kind = .closing)
    (h : Paren.ofToken? d t = some p) : t.span = some p.span := by
  obtain ⟨c, hc, hct⟩ := exists_claim_of_mem_tokens ht
  have htoken : t = c.token := by
    rcases hct with hct | ⟨-, rfl⟩
    · exact hct
    · rcases hk with hk | hk <;> cases hk
  subst htoken
  have hmem : c ∈ d.parenClaims source.toList := by
    rcases mem_callClaims_or_mem_parenClaims hc h with hcall | hparen
    · rw [kind_of_mem_callClaims hcall] at hk
      rcases hk with hk | hk <;> cases hk
    · exact hparen
  obtain ⟨side, o, -, rfl⟩ := (mem_parenClaims hd).mp hmem
  rw [ofToken?_ofSymbol] at h
  cases h
  have hpos := (Paren.symbolOf d side).utf8Size_pos
  have hwidth : max (Paren.symbolOf d side).toString.utf8ByteSize 1 =
      (Paren.symbolOf d side).utf8Size := by
    rw [utf8ByteSize_toString]
    omega
  show some (Span.ofLength o (max (Paren.symbolOf d side).toString.utf8ByteSize 1)) = _
  rw [hwidth]
  rfl

/-- Words come through the reading of operators as they are. -/
theorem freeWords_claims {source : String} (h : d.FreeWords (d.tokens source)) :
    d.FreeWords ((d.claims source.toList).map (·.token)) := by
  intro t ht hk
  -- words are left alone, so they are among the tokens
  let word : Token → Option Token := fun t =>
    match t.kind with
    | .literal | .identifier | .call => some t
    | _ => none
  have hword : word t = some t := by
    rcases hk with hk | hk | hk <;> simp only [word, hk]
  have hread : (d.tokens source).filterMap word =
      (Token.sorted ((d.claims source.toList).map (·.token))).filterMap word :=
    filterMap_readOperators (fun u hu => by simp only [word, hu]) none _
  have hmem : t ∈ (d.tokens source).filterMap word := by
    rw [hread, List.mem_filterMap]
    exact ⟨t, List.mem_mergeSort.mpr ht, hword⟩
  obtain ⟨u, hu, hut⟩ := List.mem_filterMap.mp hmem
  have htu : u = t := by
    simp only [word] at hut
    split at hut
    · exact Option.some.inj hut
    · exact Option.some.inj hut
    · exact Option.some.inj hut
    · cases hut
  exact h t (htu ▸ hu) hk

/-- **Every parenthesis belongs to one token.**  If no word holds a parenthesis, then the
parentheses of the tokens are those of the text. -/
theorem filterMap_ofToken?_tokens (hd : d.Distinct) {source : String}
    (h : d.FreeWords (d.tokens source)) :
    (d.tokens source).filterMap (Paren.ofToken? d) = Paren.inText d source.toList := by
  have hread : (d.tokens source).filterMap (Paren.ofToken? d) =
      (Token.sorted ((d.claims source.toList).map (·.token))).filterMap (Paren.ofToken? d) :=
    filterMap_readOperators (fun t hk => by simp only [Paren.ofToken?, hk]) none _
  obtain ⟨tiles, hperm, htiles, htokens⟩ := exists_tiles hd source.toList
  rw [hread, htokens, List.filterMap_map]
  refine Paren.eq_of_mem_iff ?_ (Paren.pairwise_inText d source.toList) fun p => ?_
  · refine List.Pairwise.filterMap _ ?_ (htiles.ordered.imp_of_mem (S := fun a b =>
      a ∈ d.claims source.toList ∧ b ∈ d.claims source.toList ∧ a.span.stop ≤ b.span.start) ?_)
    · rintro a b ⟨ha, hb, hab⟩ p hp q hq
      have hlt := (mem_inText_of_ofToken? hd ha hp).2.2
      have hle := (mem_inText_of_ofToken? hd hb hq).2.1
      omega
    · intro a b ha hb hab
      exact ⟨hperm.mem_iff.mp ha, hperm.mem_iff.mp hb, hab⟩
  · rw [List.mem_filterMap]
    constructor
    · rintro ⟨c, hc, hp⟩
      exact (mem_inText_of_ofToken? hd (hperm.mem_iff.mp hc) hp).1
    · intro hp
      obtain ⟨c, hc, hp⟩ := exists_ofToken?_of_mem_inText hd (freeWords_claims h) hp
      exact ⟨c, hperm.mem_iff.mpr hc, hp⟩

end Dialect

end Reckon
