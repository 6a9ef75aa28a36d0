import Reckon.Proofs.Regex.Closes
import Reckon.Proofs.Scan.Symbols

/-!
# Symbols that can be written

With the usual patterns for words, an operator whose symbol holds no character of a word is read off
its own symbol, unless it holds the separator: then the separator is claimed first, and the operator
is no token of any text (`Dialect.writable_iff`).  Building a dialect refuses a symbol that holds a
parenthesis but only one that equals the separator, so there are such operators
(`unwritable_of_commas`).
-/

namespace Reckon

open Text

/-! ## What words are made of -/

namespace Standard

open Regex

theorem closes_digits : Closes digit digits := (closes_one digit).seq_keeps (keeps_run digit true)

/-- A number ends with a digit. -/
theorem closes_number : Closes digit number := by
  have hfraction : Keeps digit (either (seq (seq (one (.char '.')) digits) empty) empty) :=
    ((closes_digits.seq _).seq_keeps (keeps_empty _)).keeps.either (keeps_empty _)
  exact (closes_digits.seq_keeps (hfraction.seq (keeps_anchor _ _))).seq _

/-- A name ends with a character that may stand in names. -/
theorem closes_name : Closes nameTail name := by
  have hhead : Closes nameTail (one nameHead) :=
    (closes_one nameHead).mono fun _ => nameTail_of_nameHead
  exact (hhead.seq_keeps ((keeps_run _ _).seq (keeps_anchor _ _))).seq _

end Standard

/-! ## Where symbols stand -/

namespace Text

variable {symbol part cs text : List Char} {offset skip o o' : Nat}

theorem le_of_mem_occurrences (h : o ∈ occurrences symbol skip offset cs) :
    offset + width (cs.take skip) ≤ o := by
  induction cs generalizing skip offset with
  | nil => cases h
  | cons c cs ih =>
    cases skip with
    | succ skip =>
      rw [occurrences] at h
      have hle := ih h
      rw [List.take_succ_cons, width_cons]
      omega
    | zero =>
      rw [List.take_zero, width_nil]
      exact (standsAt_of_mem_occurrences h).le

/-- Hits of a symbol do not overlap. -/
theorem pairwise_occurrences (hne : symbol ≠ []) (skip offset : Nat) (cs : List Char) :
    (occurrences symbol skip offset cs).Pairwise fun o o' => o + width symbol ≤ o' := by
  induction cs generalizing skip offset with
  | nil => exact List.Pairwise.nil
  | cons c cs ih =>
    cases skip with
    | succ skip => exact ih skip _
    | zero =>
      unfold occurrences
      by_cases hstarts : symbol <+: c :: cs
      · rw [if_pos (List.isPrefixOf_iff_prefix.mpr hstarts)]
        refine List.pairwise_cons.mpr ⟨fun o' ho' => ?_, ih _ _⟩
        have hwidth := width_of_isPrefix hne hstarts
        have hle := le_of_mem_occurrences ho'
        omega
      · rw [if_neg (hstarts ∘ List.isPrefixOf_iff_prefix.mp)]
        exact ih 0 _

theorem eq_or_apart_of_mem_occurrences (hne : symbol ≠ []) (h : o ∈ occurrences symbol 0 0 text)
    (h' : o' ∈ occurrences symbol 0 0 text) :
    o = o' ∨ o + width symbol ≤ o' ∨ o' + width symbol ≤ o := by
  have hpairs := List.pairwise_iff_getElem.mp (pairwise_occurrences hne 0 0 text)
  obtain ⟨i, hi, rfl⟩ := List.getElem_of_mem h
  obtain ⟨j, hj, rfl⟩ := List.getElem_of_mem h'
  rcases Nat.lt_trichotomy i j with hij | rfl | hij
  · exact .inr (.inl (hpairs i j hi hj hij))
  · exact .inl rfl
  · exact .inr (.inr (hpairs j i hj hi hij))

/-- What stands in a symbol stands where the symbol does. -/
theorem StandsAt.of_part (h : StandsAt symbol offset cs o) (hpart : part <:+: symbol) :
    ∃ o', StandsAt part offset cs o' ∧ o ≤ o' ∧ o' + width part ≤ o + width symbol := by
  obtain ⟨front, back, rfl⟩ := hpart
  obtain ⟨before, behind, rfl, rfl⟩ := h
  refine ⟨offset + width (before ++ front), ⟨before ++ front, back ++ behind, by simp, rfl⟩, ?_, ?_⟩
  · simp
  · simp only [width_append]
    omega

theorem isInfix_of_mem_occurrences (h : o ∈ occurrences symbol 0 0 text) : symbol <:+: text := by
  obtain ⟨front, back, htext, -⟩ := standsAt_of_mem_occurrences h
  exact ⟨front, back, by rw [htext, List.append_assoc]⟩

theorem mem_occurrences_self (hne : symbol ≠ []) : 0 ∈ occurrences symbol 0 0 symbol := by
  have hstands : StandsAt symbol 0 symbol 0 := ⟨[], [], by simp, rfl⟩
  rcases hstands.mem_occurrences_or hne 0 with hmem | hlt | ⟨o', -, hlt, -⟩
  · exact hmem
  · simp at hlt
  · omega

/-- In a text no wider than itself a symbol stands only if it is the text. -/
theorem StandsAt.eq_of_width_le (h : StandsAt symbol 0 text o) (hle : width text ≤ width symbol) :
    symbol = text ∧ o = 0 := by
  obtain ⟨front, back, rfl, rfl⟩ := h
  simp only [width_append] at hle
  obtain rfl : front = [] := width_eq_zero (by omega)
  obtain rfl : back = [] := width_eq_zero (by omega)
  simp

end Text

namespace Dialect

variable {d : Dialect} {spec : Spec} {symbol source : String} {text : List Char} {kind : TokenKind}
  {c x : Claim} {t : Token} {o : Nat}

/-- Names and numbers are matched by the usual patterns. -/
structure UsualWords (d : Dialect) : Prop where
  identifier : d.identifier = Standard.name
  literal : d.literal = Standard.number

/-- No character is one of a word. -/
def Wordless (cs : List Char) : Prop := ∀ c ∈ cs, ¬ isWord c

theorem usualWords_of_build (hbuild : Dialect.build spec = .ok d)
    (hidentifier : spec.identifier = Spec.bare.identifier)
    (hliteral : spec.literal = Spec.bare.literal) : d.UsualWords := by
  obtain ⟨hname, hnumber⟩ := patterns_of_build hbuild
  rw [hidentifier] at hname
  rw [hliteral] at hnumber
  exact ⟨(Except.ok.inj hname).symm, (Except.ok.inj hnumber).symm⟩

/-! ## Claims of words and parentheses -/

/-- The claims that are made before those of separators and operators. -/
def wordClaims (d : Dialect) (text : List Char) : List Claim :=
  d.callClaims text ++ d.literalClaims text ++ d.identifierClaims text ++ d.parenClaims text

theorem claims_eq_addAll_wordClaims (d : Dialect) (text : List Char) :
    d.claims text = Claim.addAll [] (d.wordClaims text ++
      (Claim.ofOccurrences text .separator d.separator ++
        d.operatorSymbols.flatMap fun s => Claim.ofOccurrences text s.2 s.1)) := by
  rw [claims_eq_addAll, laterClaims, wordClaims]
  simp only [List.append_assoc]

/-- A word ends with a character of a word. -/
theorem exists_last_of_mem (hd : d.Distinct) (hwords : d.UsualWords)
    (hc : c ∈ d.callClaims text ∨ c ∈ d.literalClaims text ∨ c ∈ d.identifierClaims text) :
    ∃ cs e, c.own = cs ++ [e] ∧ isWord e := by
  have hown : ∀ {r : Regex} {s : CharSet} {p q : Regex.Place}, Regex.Closes s r →
      (∀ e, s.has e → isWord e) → q ∈ r.ends p →
      c.token.text = Regex.Slice.text ⟨p.offset, q.offset, p.rest⟩ →
      ∃ cs e, c.own = cs ++ [e] ∧ isWord e := by
    intro r s p q hr hs hq htext
    obtain ⟨cs, e, hslice, he⟩ := hr.text_eq hq
    exact ⟨cs, e, by rw [Claim.own, htext, hslice, String.toList_ofList], hs e he⟩
  have hname := Standard.closes_name
  have hnumber := Standard.closes_number
  rw [← hwords.identifier] at hname
  rw [← hwords.literal] at hnumber
  rcases hc with hc | hc | hc
  · obtain ⟨p, q, -, hq, htext⟩ := exists_ends_of_mem_callClaims hd hc
    exact hown hname (fun _ => Standard.isWord_of_nameTail) hq htext
  · obtain ⟨m, hm, rfl⟩ := List.mem_map.mp hc
    obtain ⟨p, q, -, hq, rfl⟩ := Regex.exists_of_mem_findAll hm
    exact hown hnumber (fun _ => Standard.isWord_of_digit) hq rfl
  · obtain ⟨m, hm, hc⟩ := List.mem_filterMap.mp hc
    obtain ⟨p, q, -, hq, rfl⟩ := Regex.exists_of_mem_findAll hm
    split at hc
    · cases hc
    · refine hown hname (fun _ => Standard.isWord_of_nameTail) hq ?_
      rw [← Option.some.inj hc]
      rfl

/-- The bytes of a word or a parenthesis end with a character of a word or with a parenthesis. -/
theorem exists_last_of_mem_wordClaims (hd : d.Distinct) (hwords : d.UsualWords)
    (hc : c ∈ d.wordClaims text) :
    ∃ cs e, c.own ++ c.extra d = cs ++ [e] ∧ (isWord e ∨ e = d.opening ∨ e = d.closing) := by
  simp only [wordClaims, List.mem_append, or_assoc] at hc
  rcases hc with hc | hc | hc | hc
  · exact ⟨c.own, d.opening, by rw [Claim.extra, if_pos (kind_of_mem_callClaims hc)],
      .inr (.inl rfl)⟩
  · obtain ⟨cs, e, hown, he⟩ := exists_last_of_mem hd hwords (.inr (.inl hc))
    rw [Claim.extra_of_not_call (by simp [kind_of_mem_literalClaims hc]), List.append_nil]
    exact ⟨cs, e, hown, .inl he⟩
  · obtain ⟨cs, e, hown, he⟩ := exists_last_of_mem hd hwords (.inr (.inr hc))
    rw [Claim.extra_of_not_call (by simp [kind_of_mem_identifierClaims hc]), List.append_nil]
    exact ⟨cs, e, hown, .inl he⟩
  · obtain ⟨side, o, -, rfl⟩ := (mem_parenClaims hd).mp hc
    have hkind : Paren.kindOf side ≠ .call := by cases side <;> decide
    rw [Claim.extra_of_not_call hkind, List.append_nil, own_ofSymbol]
    refine ⟨[], _, rfl, .inr ?_⟩
    cases side
    · exact .inl rfl
    · exact .inr rfl

/-- Characters that are neither of words nor parentheses hold no word and no parenthesis. -/
theorem wordClaims_eq_nil (hd : d.Distinct) (hwords : d.UsualWords) (htext : Wordless text)
    (hopening : d.opening ∉ text) (hclosing : d.closing ∉ text) : d.wordClaims text = [] := by
  have hname : ∀ c ∈ text, ¬ Standard.nameHead.has c :=
    fun c hc h => htext c hc (Standard.isWord_of_nameHead h)
  have hdigit : ∀ c ∈ text, ¬ Standard.digit.has c :=
    fun c hc h => htext c hc (Standard.isWord_of_digit h)
  have hfind : ∀ {s : CharSet} {r : Regex}, Regex.StartsWord s r → (∀ c ∈ text, ¬ s.has c) →
      r.findAll text = [] := by
    intro s r hr hs
    rw [Regex.findAll, ← List.append_nil text, Regex.matchesFrom_quiet hr
      (Regex.quiet_of_not_mem hs)]
    exact Regex.matchesFrom_nil (hr _ (by simp))
  have hcall : Regex.StartsWord Standard.nameHead d.call := by
    rw [hd.call_eq, hwords.identifier]
    exact (Standard.startsWord_name.named _).seq _
  rw [wordClaims, callClaims, hfind hcall hname, literalClaims, hwords.literal,
    hfind Standard.startsWord_number hdigit, identifierClaims, hwords.identifier,
    hfind Standard.startsWord_name hname]
  rw [List.filterMap_nil, List.map_nil, List.nil_append, List.nil_append, List.filterMap_nil,
    List.nil_append, List.eq_nil_iff_forall_not_mem]
  intro c hc
  obtain ⟨side, o, hstands, -⟩ := (mem_parenClaims hd).mp hc
  cases side
  · exact hopening hstands.mem
  · exact hclosing hstands.mem

/-! ## A symbol that does not hold the separator -/

/-- A symbol is sought as one kind. -/
theorem kind_eq_of_mem_operatorSymbols {kind' : TokenKind} (h : (symbol, kind) ∈ d.operatorSymbols)
    (h' : (symbol, kind') ∈ d.operatorSymbols) : kind = kind' := by
  have hboth : (∃ op ∈ d.operators, op.name = symbol) → d.operator? symbol ≠ none := by
    rintro ⟨op, hop, hname⟩ hnone
    exact List.find?_eq_none.mp hnone op hop (beq_of_eq hname)
  rcases mem_operatorSymbols_iff.mp h with ⟨hk, hop⟩ | ⟨hk, -, hnone⟩ <;>
    rcases mem_operatorSymbols_iff.mp h' with ⟨hk', hop'⟩ | ⟨hk', -, hnone'⟩
  · exact hk.trans hk'.symm
  · exact absurd hnone' (hboth hop)
  · exact absurd hnone (hboth hop')
  · exact hk.trans hk'.symm

/-- Symbols that are sought before another are at least as long. -/
theorem width_le_of_operatorSymbols_eq {front back : List (String × TokenKind)}
    (h : d.operatorSymbols = front ++ (symbol, kind) :: back) :
    ∀ s ∈ front, width symbol.toList ≤ width s.1.toList := by
  have hsorted : d.operatorSymbols.Pairwise fun a b => b.1.utf8ByteSize ≤ a.1.utf8ByteSize := by
    refine (List.pairwise_mergeSort ?_ ?_ _).imp of_decide_eq_true
    · intro a b c hab hbc
      exact decide_eq_true (Nat.le_trans (of_decide_eq_true hbc) (of_decide_eq_true hab))
    · intro a b
      rw [Bool.or_eq_true, decide_eq_true_eq, decide_eq_true_eq]
      exact Nat.le_total _ _
  rw [h, List.pairwise_append] at hsorted
  intro s hs
  have hle := hsorted.2.2 s hs (symbol, kind) List.mem_cons_self
  rwa [utf8ByteSize_eq_width, utf8ByteSize_eq_width] at hle

/-- On the text of a symbol another one that is as long has no hit. -/
theorem eq_ofSymbol_of_width_le {name : String} {kind' : TokenKind}
    (hsought : (symbol, kind) ∈ d.operatorSymbols) (hs : (name, kind') ∈ d.operatorSymbols)
    (hle : width symbol.toList ≤ width name.toList)
    (hc : c ∈ Claim.ofOccurrences symbol.toList kind' name) : c = Claim.ofSymbol kind symbol 0 := by
  obtain ⟨o, ho, rfl⟩ := List.mem_map.mp hc
  obtain ⟨hname, rfl⟩ := (standsAt_of_mem_occurrences ho).eq_of_width_le hle
  obtain rfl : name = symbol := String.toList_inj.mp hname
  rw [kind_eq_of_mem_operatorSymbols hs hsought]

/-- The symbol takes all of its text. -/
theorem overlaps_ofSymbol {name : String} {kind' : TokenKind} (hname : name.toList ≠ [])
    (hc : c ∈ Claim.ofOccurrences symbol.toList kind' name) :
    (Claim.ofSymbol kind symbol 0).span.overlaps c.span := by
  obtain ⟨o, ho, rfl⟩ := List.mem_map.mp hc
  obtain ⟨before, behind, htext, rfl⟩ := standsAt_of_mem_occurrences ho
  have hpos := width_pos hname
  have hwidth := congrArg width htext
  simp only [width_append] at hwidth
  rw [Claim.overlaps_iff]
  simp only [Claim.ofSymbol, Span.ofLength, utf8ByteSize_eq_width]
  omega

/-- The symbol is the only claim on its own text. -/
theorem claims_symbol (hd : d.Distinct) (hwords : d.UsualWords)
    (hsought : (symbol, kind) ∈ d.operatorSymbols) (hwordless : Wordless symbol.toList)
    (hfree : ¬ d.separator.toList <:+: symbol.toList) :
    d.claims symbol.toList = [Claim.ofSymbol kind symbol 0] := by
  have hparens := freeOfParens_of_mem_operatorSymbols hd hsought
  have hpos : 0 < symbol.utf8ByteSize := by
    rw [utf8ByteSize_eq_width]
    exact width_pos hparens.ne_nil
  have hseparator : Claim.ofOccurrences symbol.toList .separator d.separator = [] := by
    rw [Claim.ofOccurrences, List.map_eq_nil_iff, List.eq_nil_iff_forall_not_mem]
    exact fun o ho => hfree (isInfix_of_mem_occurrences ho)
  obtain ⟨front, back, hsplit⟩ := List.append_of_mem hsought
  have hlonger := width_le_of_operatorSymbols_eq hsplit
  have htile : Claim.Tiled [Claim.ofSymbol kind symbol 0] :=
    ⟨by simpa [Claim.ofSymbol, Span.ofLength] using hpos, List.pairwise_singleton _ _⟩
  have hself : Claim.ofSymbol kind symbol 0 ∈ (front ++ [(symbol, kind)]).flatMap fun s =>
      Claim.ofOccurrences symbol.toList s.2 s.1 := by
    refine List.mem_flatMap.mpr ⟨(symbol, kind), by simp, List.mem_map_of_mem ?_⟩
    exact mem_occurrences_self hparens.ne_nil
  rw [claims_eq_addAll_wordClaims,
    wordClaims_eq_nil hd hwords hwordless hparens.opening hparens.closing, hseparator,
    List.nil_append, List.nil_append, hsplit, List.append_cons, List.flatMap_append]
  refine List.perm_singleton.mp (htile.perm_addAll ?_ ?_ ?_)
  · -- what is sought no later is as long as the symbol: it is the symbol or does not stand here
    intro c hc
    obtain ⟨⟨name, kind'⟩, hs, hc⟩ := List.mem_flatMap.mp hc
    have hle : width symbol.toList ≤ width name.toList := by
      rcases List.mem_append.mp hs with hs | hs
      · exact hlonger _ hs
      · rw [(Prod.mk.inj (List.mem_singleton.mp hs)).1]
    have hs' : (name, kind') ∈ d.operatorSymbols := by
      rw [hsplit, List.append_cons]
      exact List.mem_append_left _ hs
    exact List.mem_singleton.mpr (eq_ofSymbol_of_width_le hsought hs' hle hc)
  · intro c hc
    obtain ⟨⟨name, kind'⟩, hs, hc⟩ := List.mem_flatMap.mp hc
    have hs' : (name, kind') ∈ d.operatorSymbols := by
      rw [hsplit, List.append_cons]
      exact List.mem_append_right _ hs
    have hname := (freeOfParens_of_mem_operatorSymbols hd hs').ne_nil
    exact .inr ⟨Claim.ofSymbol kind symbol 0, hself, overlaps_ofSymbol hname hc⟩
  · intro c hc
    rw [List.mem_singleton.mp hc]
    exact .inl hself

/-- An operator that stands alone is read as a unary one if it can be. -/
theorem readOperator_alone (hk : t.kind = .operator) : d.readOperator none t none =
    { t with kind := if (d.unary? t.text).isSome then .unary else .operator } := by
  cases hu : d.unary? t.text with
  | none =>
    rw [readOperator_of_none hu, ← hk]
    rfl
  | some op =>
    unfold readOperator
    rw [if_pos hk, hu]
    cases hside : op.side <;> simp [hside, allowsBefore, allowsAfter]

/-- A symbol that does not hold the separator is read off its own text. -/
theorem tokens_symbol (hd : d.Distinct) (hwords : d.UsualWords)
    (hsought : (symbol, kind) ∈ d.operatorSymbols) (hwordless : Wordless symbol.toList)
    (hfree : ¬ d.separator.toList <:+: symbol.toList) :
    d.tokens symbol =
      [⟨if (d.unary? symbol).isSome then .unary else .operator, symbol, some 0⟩] := by
  have hread : d.readOperator none ⟨kind, symbol, some 0⟩ none =
      ⟨if (d.unary? symbol).isSome then .unary else .operator, symbol, some 0⟩ := by
    rcases exists_of_mem_operatorSymbols hsought with ⟨hk, -⟩ | ⟨hk, op, hop, hname⟩
    · exact readOperator_alone hk
    · obtain rfl : kind = .unary := hk
      have hunary : (d.unary? symbol).isSome := List.find?_isSome.mpr ⟨op, hop, beq_of_eq hname⟩
      have hne : (⟨.unary, symbol, some 0⟩ : Token).kind ≠ .operator := nofun
      rw [readOperator_of_ne hne, if_pos hunary]
  rw [tokens, claims_symbol hd hwords hsought hwordless hfree, List.map_singleton, Token.sorted,
    List.mergeSort_singleton, readOperators, readOperators]
  exact congrArg (fun t => [t]) hread

/-! ## A symbol that holds the separator -/

/-- Neither a word nor a parenthesis nor the separator is written like an operator. -/
theorem text_ne_of_mem (hd : d.Distinct) (hwords : d.UsualWords)
    (hsought : (symbol, kind) ∈ d.operatorSymbols) (hwordless : Wordless symbol.toList)
    (hc : c ∈ d.wordClaims text ∨ c ∈ Claim.ofOccurrences text .separator d.separator) :
    c.token.text ≠ symbol := by
  rintro rfl
  have hparens := freeOfParens_of_mem_operatorSymbols hd hsought
  have hword :
      ¬ (c ∈ d.callClaims text ∨ c ∈ d.literalClaims text ∨ c ∈ d.identifierClaims text) := by
    intro hc
    obtain ⟨cs, e, hown, he⟩ := exists_last_of_mem hd hwords hc
    refine hwordless e ?_ he
    rw [← Claim.own, hown]
    simp
  simp only [wordClaims, List.mem_append, or_assoc] at hc
  rcases hc with hc | hc | hc | hc | hc
  · exact hword (.inl hc)
  · exact hword (.inr (.inl hc))
  · exact hword (.inr (.inr hc))
  · obtain ⟨side, o, -, rfl⟩ := (mem_parenClaims hd).mp hc
    cases side
    · exact hparens.opening (by simp [Claim.ofSymbol, Paren.symbolOf])
    · exact hparens.closing (by simp [Claim.ofSymbol, Paren.symbolOf])
  · obtain ⟨o, -, rfl⟩ := List.mem_map.mp hc
    rcases exists_of_mem_operatorSymbols hsought with ⟨-, op, hop, hname⟩ | ⟨-, op, hop, hname⟩
    · exact (hd.operators op hop).2 hname
    · exact (hd.unaries op hop).2 hname

/-- Before operators are sought, some byte of every hit of the separator is taken. -/
theorem exists_overlaps_separator (hd : d.Distinct)
    (ho : o ∈ occurrences d.separator.toList 0 0 text) :
    ∃ x ∈ d.claims text,
      (x ∈ d.wordClaims text ∨ x ∈ Claim.ofOccurrences text .separator d.separator) ∧
        x.span.start < o + width d.separator.toList ∧ o < x.span.stop := by
  let separators := Claim.ofOccurrences text .separator d.separator
  have hpos : 0 < width d.separator.toList := width_pos hd.separator.ne_nil
  have hmade : Claim.ofSymbol .separator d.separator o ∈ d.wordClaims text ++ separators :=
    List.mem_append_right _ (List.mem_map_of_mem ho)
  have hstop : (Claim.ofSymbol .separator d.separator o).span.stop =
      o + width d.separator.toList := by
    rw [← utf8ByteSize_eq_width]
    rfl
  have hbytes : o < (Claim.ofSymbol .separator d.separator o).span.stop := by
    rw [hstop]
    exact Nat.lt_add_of_pos_right hpos
  obtain ⟨x, hx, hover⟩ := @Claim.exists_overlaps_of_mem [] _ _ hmade hbytes
  refine ⟨x, ?_, List.mem_append.mp ((Claim.mem_addAll hx).resolve_left List.not_mem_nil), ?_⟩
  · rw [claims_eq_addAll_wordClaims, ← List.append_assoc, Claim.addAll, List.foldl_append]
    exact Claim.mem_addAll_of_mem hx
  · rcases hover with rfl | hover
    · exact ⟨Nat.lt_add_of_pos_right hpos, hbytes⟩
    · rw [Claim.overlaps_iff, hstop] at hover
      exact hover

/-- An operator whose symbol holds the separator is no token of any text. -/
theorem text_ne_of_isInfix (hd : d.Distinct) (hwords : d.UsualWords)
    (hsought : (symbol, kind) ∈ d.operatorSymbols) (hwordless : Wordless symbol.toList)
    (hheld : d.separator.toList <:+: symbol.toList) (ht : t ∈ d.tokens source) :
    t.text ≠ symbol := by
  intro htext
  obtain ⟨c, hc, hread⟩ := exists_claim_of_mem_tokens ht
  have hsymbol : c.token.text = symbol := by
    rcases hread with rfl | ⟨-, rfl⟩ <;> exact htext
  have hother := fun {x} =>
    @text_ne_of_mem d symbol source.toList kind x hd hwords hsought hwordless
  -- the operator is claimed as such, so it stands where it is claimed
  obtain ⟨s, hs, hoccurs⟩ : ∃ s ∈ d.operatorSymbols,
      c ∈ Claim.ofOccurrences source.toList s.2 s.1 := by
    have hclasses := mem_claims hc
    simp only [← or_assoc] at hclasses
    rcases hclasses with hclasses | hoperator
    · refine absurd hsymbol (hother ?_)
      simpa only [wordClaims, List.mem_append] using hclasses
    · exact hoperator
  obtain ⟨p, hp, rfl⟩ := List.mem_map.mp hoccurs
  obtain rfl : s.1 = symbol := hsymbol
  obtain ⟨o, hstands, hpo, hop⟩ := (standsAt_of_mem_occurrences hp).of_part hheld
  have hpos : 0 < width d.separator.toList := width_pos hd.separator.ne_nil
  -- the separator that it holds is hit, or a hit reaches into it
  obtain ⟨hit, hhit, hle, hreach⟩ : ∃ hit ∈ occurrences d.separator.toList 0 0 source.toList,
      hit ≤ o ∧ o < hit + width d.separator.toList := by
    rcases hstands.mem_occurrences_or hd.separator.ne_nil 0 with
      hmem | hlt | ⟨hit, hmem, hlt, hreach⟩
    · exact ⟨o, hmem, Nat.le_refl o, Nat.lt_add_of_pos_right hpos⟩
    · simp at hlt
    · exact ⟨hit, hmem, hlt.le, hreach⟩
  obtain ⟨x, hx, hclass, hxstart, hxstop⟩ := exists_overlaps_separator hd hhit
  have hapart : x.span.stop ≤ p := by
    obtain ⟨tiles, hperm, htiles⟩ := (apart_claims d source.toList).exists_tiled
    by_contra hlt
    refine hother hclass ?_
    rw [htiles.eq_of_overlaps (hperm.mem_iff.mpr hx) (hperm.mem_iff.mpr hc) ?_]
    · rfl
    · rw [Claim.overlaps_iff]
      simp only [Claim.ofSymbol, Span.ofLength, utf8ByteSize_eq_width]
      omega
  rcases hclass with hword | hseparator
  · -- a word that cuts the hit ends inside the separator
    obtain ⟨cs, e, hlast, he⟩ := exists_last_of_mem_wordClaims hd hwords hword
    have hcovers := covers_of_mem_claims hd hx
    have hstandsLast := hcovers.stands
    have hstop := hcovers.stop_eq
    rw [hlast] at hstandsLast hstop
    rw [width_append, width_cons, width_nil] at hstop
    have hmem : e ∈ d.separator.toList :=
      (hstandsLast.right.of_overlap (standsAt_of_mem_occurrences hhit) (by omega) (by omega)).mem
    rcases he with he | rfl | rfl
    · exact hwordless e (hheld.subset hmem) he
    · exact hd.separator.opening hmem
    · exact hd.separator.closing hmem
  · -- another hit does not overlap, and this one reaches into the operator
    obtain ⟨hit', hhit', rfl⟩ := List.mem_map.mp hseparator
    simp only [Claim.ofSymbol, Span.ofLength, utf8ByteSize_eq_width] at hxstart hxstop hapart
    have hhits := eq_or_apart_of_mem_occurrences hd.separator.ne_nil hhit hhit'
    omega

/-! ## Declared operators -/

/-- The names of the operators that are declared. -/
def Spec.operatorNames (s : Spec) : List String :=
  s.operators.map (·.name) ++ s.unaries.map (·.name)

theorem exists_kind_of_mem_operatorNames (hbuild : Dialect.build spec = .ok d)
    (h : symbol ∈ spec.operatorNames) : ∃ kind, (symbol, kind) ∈ d.operatorSymbols := by
  obtain ⟨-, hoperators, hunaries⟩ := symbols_of_build hbuild
  rw [Spec.operatorNames, ← hoperators, ← hunaries] at h
  rcases List.mem_append.mp h with h | h
  · obtain ⟨op, hop, rfl⟩ := List.mem_map.mp h
    exact ⟨.operator, mem_operatorSymbols_iff.mpr (.inl ⟨rfl, op, hop, rfl⟩)⟩
  · obtain ⟨op, hop, rfl⟩ := List.mem_map.mp h
    exact exists_kind_of_mem_unaries hop

theorem isSome_unary?_iff (hbuild : Dialect.build spec = .ok d) :
    (d.unary? symbol).isSome ↔ symbol ∈ spec.unaries.map (·.name) := by
  rw [unary?, List.find?_isSome, (symbols_of_build hbuild).2.2]
  simp

/-- **Operators can be written.**  With the usual patterns for words, an operator whose symbol holds
no character of a word is read off its own symbol, as a unary one if it can be, unless the symbol
holds the separator.  An operator whose symbol holds the separator is no token of any text. -/
theorem writable_iff (hbuild : Dialect.build spec = .ok d)
    (hidentifier : spec.identifier = Spec.bare.identifier)
    (hliteral : spec.literal = Spec.bare.literal) (hdeclared : symbol ∈ spec.operatorNames)
    (hwordless : Wordless symbol.toList) :
    (d.tokens symbol = [⟨if symbol ∈ spec.unaries.map (·.name) then .unary else .operator, symbol,
        some 0⟩] ↔ ¬ spec.separator.toList <:+: symbol.toList) ∧
      (spec.separator.toList <:+: symbol.toList →
        ∀ source, ∀ t ∈ d.tokens source, t.text ≠ symbol) := by
  have hd := distinct_of_build hbuild
  have hwords := usualWords_of_build hbuild hidentifier hliteral
  obtain ⟨kind, hsought⟩ := exists_kind_of_mem_operatorNames hbuild hdeclared
  have hnever : spec.separator.toList <:+: symbol.toList →
      ∀ source, ∀ t ∈ d.tokens source, t.text ≠ symbol := by
    rw [← (symbols_of_build hbuild).1]
    exact fun hheld source t => text_ne_of_isInfix hd hwords hsought hwordless hheld
  refine ⟨⟨fun htokens hheld => ?_, fun hfree => ?_⟩, hnever⟩
  · have hmem := List.mem_singleton_self (⟨if symbol ∈ spec.unaries.map (·.name) then .unary
      else .operator, symbol, some 0⟩ : Token)
    rw [← htokens] at hmem
    exact hnever hheld symbol _ hmem rfl
  · rw [← (symbols_of_build hbuild).1] at hfree
    rw [tokens_symbol hd hwords hsought hwordless hfree]
    simp only [isSome_unary?_iff hbuild]

/-- An operator of two separators, and one that begins with another and is also a unary one. -/
def Spec.commas : Spec :=
  { Spec.bare with
    operators := [⟨",,", 1, true⟩, ⟨"<", 1, true⟩, ⟨"<=>", 2, true⟩]
    unaries := [⟨"<=>", 3, .before⟩] }

/-- What `build` makes of them. -/
def commas : Dialect where
  identifier := Standard.name
  literal := Standard.number
  call := Standard.call
  opening := '('
  closing := ')'
  separator := ","
  operators := Spec.commas.operators
  unaries := Spec.commas.unaries

theorem build_commas : Dialect.build .commas = .ok commas := rfl

theorem wordless_commas : Wordless ",,".toList := by
  intro c hc
  obtain rfl : c = ',' := by simpa using hc
  decide

/-- The longest symbol is read off its text, and one of two separators is not. -/
theorem writable_iff_of_commas :
    commas.tokens "<=>" = [⟨.unary, "<=>", some 0⟩] ∧
      ∀ t ∈ commas.tokens "x,,y", t.text ≠ ",," := by
  have hwordless : Wordless "<=>".toList := by
    intro c hc
    have hc : c = '<' ∨ c = '=' ∨ c = '>' := by simpa using hc
    rcases hc with rfl | rfl | rfl <;> decide
  constructor
  · exact (writable_iff build_commas rfl rfl (by decide) hwordless).1.mpr (by decide)
  · exact (writable_iff build_commas rfl rfl (by decide) wordless_commas).2 (by decide) _

/-- The operator of two commas is declared and accepted, and its own text is read as two
separators. -/
theorem unwritable_of_commas : ∃ d, Dialect.build .commas = .ok d ∧
    Spec.commas.identifier = Spec.bare.identifier ∧ Spec.commas.literal = Spec.bare.literal ∧
    ",," ∈ Spec.commas.operatorNames ∧ Wordless ",,".toList ∧
    d.tokens ",," = [⟨.separator, ",", some 0⟩, ⟨.separator, ",", some 1⟩] ∧
    ¬ ∃ kind position, d.tokens ",," = [⟨kind, ",,", position⟩] := by
  have htokens : commas.tokens ",," = [⟨.separator, ",", some 0⟩, ⟨.separator, ",", some 1⟩] := by
    cbv
  refine ⟨commas, rfl, rfl, rfl, by decide, wordless_commas, htokens, ?_⟩
  rintro ⟨kind, position, h⟩
  rw [htokens] at h
  simp at h

end Dialect

end Reckon
