import Reckon.Proofs.Scan.Layout
import Reckon.Proofs.Scan.Parens

/-!
# Symbols that are passed over

The search for a symbol goes on behind each hit, so it misses a place where the symbol stands only if
it hits one that reaches into it (`Text.StandsAt.mem_occurrences_or`).  Every hit is claimed, at least
in part.  A symbol of a text is therefore left out only if an end of it is also how it begins and the
hit before it is cut by another token (`Dialect.symbols_claimed`).  This does happen: of `!===`, when
both `!=` and `==` are operators, the last two bytes belong to no token (`symbols_not_claimed`).
-/

namespace Reckon

open Text

/-! ## Symbols that overlap themselves -/

namespace Text

variable {symbol cs text : List Char} {c : Char} {offset skip o o' : Nat}

/-- A beginning of the symbol that is also its end is empty or all of it. -/
def Unbordered (symbol : List Char) : Prop :=
  ∀ border ∈ symbol.inits, border ≠ [] → border <:+ symbol → border = symbol

instance : DecidablePred Unbordered := fun symbol =>
  inferInstanceAs (Decidable (∀ border ∈ symbol.inits, border ≠ [] → border <:+ symbol →
    border = symbol))

theorem unbordered_singleton (c : Char) : Unbordered [c] := by
  intro border _ hne hend
  exact hend.eq_of_length_le (List.length_pos_iff.mpr hne)

theorem StandsAt.le (h : StandsAt symbol offset cs o) : offset ≤ o := by
  obtain ⟨front, back, -, rfl⟩ := h
  omega

/-- A symbol stands at the first character or behind it. -/
theorem StandsAt.cases_cons (h : StandsAt symbol offset (c :: cs) o) :
    o = offset ∧ symbol <+: c :: cs ∨ StandsAt symbol (offset + c.utf8Size) cs o := by
  obtain ⟨front, back, hcs, rfl⟩ := h
  cases front with
  | nil => exact .inl ⟨rfl, back, hcs.symm⟩
  | cons e front =>
    obtain ⟨rfl, rfl⟩ := List.cons.inj hcs
    exact .inr ⟨front, back, rfl, by rw [width_cons, Nat.add_assoc]⟩

/-- Behind the first character of a hit the search skips the rest of the symbol. -/
theorem width_of_isPrefix (hne : symbol ≠ []) (h : symbol <+: c :: cs) :
    width symbol = c.utf8Size + width (cs.take (symbol.length - 1)) := by
  have hlength : symbol.length - 1 + 1 = symbol.length :=
    Nat.sub_add_cancel (List.length_pos_iff.mpr hne)
  rw [← width_cons, ← List.take_succ_cons, hlength, ← List.prefix_iff_eq_take.mp h]

/-- The search hits a symbol, unless it stands in what the search skips or a hit reaches into it. -/
theorem StandsAt.mem_occurrences_or (h : StandsAt symbol offset cs o) (hne : symbol ≠ [])
    (skip : Nat) : o ∈ occurrences symbol skip offset cs ∨ o < offset + width (cs.take skip) ∨
      ∃ o' ∈ occurrences symbol skip offset cs, o' < o ∧ o < o' + width symbol := by
  induction cs generalizing skip offset with
  | nil =>
    obtain ⟨front, back, hcs, -⟩ := h
    exact absurd (List.append_eq_nil_iff.mp (List.append_eq_nil_iff.mp hcs.symm).2).1 hne
  | cons c cs ih =>
    have hpos := c.utf8Size_pos
    cases skip with
    | succ skip =>
      rw [occurrences, List.take_succ_cons, width_cons]
      rcases h.cases_cons with ⟨rfl, -⟩ | h
      · exact .inr (.inl (by omega))
      · rcases ih h skip with hhit | hlt | hreach
        · exact .inl hhit
        · exact .inr (.inl (by omega))
        · exact .inr (.inr hreach)
    | zero =>
      unfold occurrences
      by_cases hstarts : symbol <+: c :: cs
      · rw [if_pos (List.isPrefixOf_iff_prefix.mpr hstarts)]
        rcases h.cases_cons with ⟨rfl, -⟩ | h
        · exact .inl List.mem_cons_self
        · rcases ih h (symbol.length - 1) with hhit | hlt | ⟨o', hhit, hreach⟩
          · exact .inl (List.mem_cons_of_mem _ hhit)
          · -- what is skipped is the rest of the symbol that has just been hit
            have hwidth := width_of_isPrefix hne hstarts
            have hle := h.le
            exact .inr (.inr ⟨offset, List.mem_cons_self, by omega, by omega⟩)
          · exact .inr (.inr ⟨o', List.mem_cons_of_mem _ hhit, hreach⟩)
      · rw [if_neg (hstarts ∘ List.isPrefixOf_iff_prefix.mp)]
        rcases h.cases_cons with ⟨-, h⟩ | h
        · exact absurd h hstarts
        · rcases ih h 0 with hhit | hlt | hreach
          · exact .inl hhit
          · have hle := h.le
            rw [List.take_zero, width_nil] at hlt
            omega
          · exact .inr (.inr hreach)

/-- A symbol that reaches into itself has an end that is also how it begins. -/
theorem StandsAt.not_unbordered (h' : StandsAt symbol 0 text o') (h : StandsAt symbol 0 text o)
    (hlt : o' < o) (hreach : o < o' + width symbol) : ¬ Unbordered symbol := by
  obtain ⟨front', back', rfl, rfl⟩ := h'
  obtain ⟨front, back, htext, rfl⟩ := h
  obtain ⟨between, rfl, hrest⟩ | ⟨between, rfl, -⟩ := List.append_eq_append_iff.mp htext
  · rw [width_append] at hlt hreach
    obtain ⟨beyond, rfl, -⟩ | ⟨border, hborder, hback⟩ := List.append_eq_append_iff.mp hrest
    · -- the first one ends before the other begins
      rw [width_append] at hreach
      omega
    · have hlength : border.length ≤ symbol.length := by
        rw [hborder, List.length_append]
        omega
      have hbegins : border <+: symbol :=
        List.prefix_of_prefix_length_le ⟨back', hback.symm⟩ ⟨back, rfl⟩ hlength
      have hwidth : width symbol = width between + width border := by
        rw [← width_append, ← hborder]
      have hne : border ≠ [] := by
        rintro rfl
        rw [width_nil] at hwidth
        omega
      intro hunbordered
      have hall : border = symbol :=
        hunbordered border ((List.mem_inits _ _).mpr hbegins) hne ⟨between, hborder.symm⟩
      rw [hall] at hwidth
      omega
  · -- the other one would not begin behind the first
    rw [width_append] at hlt
    omega

end Text

/-! ## Symbols and bytes of tokens -/

namespace Dialect

variable {d : Dialect} {source symbol : String} {o : Nat} {s : Span}

/-- What is sought in a text as it is written. -/
inductive IsSymbol (d : Dialect) : String → Prop
  | opening : IsSymbol d d.opening.toString
  | closing : IsSymbol d d.closing.toString
  | separator : IsSymbol d d.separator
  | operator {op : Operator} (h : op ∈ d.operators) : IsSymbol d op.name
  | unary {op : UnaryOperator} (h : op ∈ d.unaries) : IsSymbol d op.name

/-- Some of the bytes belong to a token of the text. -/
def Touched (d : Dialect) (source : String) (s : Span) : Prop :=
  ∃ t ∈ d.tokens source, ∃ owned ∈ t.owned d, owned.overlaps s

/-- The search has hit the symbol at a place from where it reaches `o`, and before `o` a token cuts
it. -/
def Shadowed (d : Dialect) (source symbol : String) (o : Nat) : Prop :=
  ∃ o' ∈ occurrences symbol.toList 0 0 source.toList,
    o' < o ∧ o < o' + symbol.utf8ByteSize ∧ d.Touched source (Span.between o' o)

theorem IsSymbol.ne_nil (hd : d.Distinct) (h : d.IsSymbol symbol) : symbol.toList ≠ [] := by
  cases h with
  | opening => simp
  | closing => simp
  | separator => exact hd.separator.1
  | operator hop => exact (hd.operators _ hop).1.1
  | unary hop => exact (hd.unaries _ hop).1.1

/-- A name that is in both tables is sought as a binary operator. -/
theorem exists_kind_of_mem_unaries {op : UnaryOperator} (h : op ∈ d.unaries) :
    ∃ kind, (op.name, kind) ∈ d.operatorSymbols := by
  cases hboth : d.operator? op.name with
  | none => exact ⟨.unary, mem_operatorSymbols_iff.mpr (.inr ⟨rfl, ⟨op, h, rfl⟩, hboth⟩)⟩
  | some binary =>
    have hname : binary.name = op.name := by
      simpa using List.find?_some (p := fun b : Operator => b.name == op.name) hboth
    have hbinary : binary ∈ d.operators := List.mem_of_find?_eq_some hboth
    exact ⟨.operator, mem_operatorSymbols_iff.mpr (.inl ⟨rfl, binary, hbinary, hname⟩)⟩

theorem mem_laterClaims_of_operatorSymbols {text : List Char} {kind : TokenKind}
    (hkind : (symbol, kind) ∈ d.operatorSymbols) (ho : o ∈ occurrences symbol.toList 0 0 text) :
    Claim.ofSymbol kind symbol o ∈ d.laterClaims text := by
  unfold laterClaims
  apply List.mem_append_right
  exact List.mem_flatMap.mpr ⟨(symbol, kind), hkind, List.mem_map_of_mem ho⟩

theorem mem_laterClaims_of_paren (hd : d.Distinct) {text : List Char} (side : ParenSide)
    (ho : o ∈ occurrences (Paren.symbolOf d side).toString.toList 0 0 text) :
    Claim.ofSymbol (Paren.kindOf side) (Paren.symbolOf d side).toString o ∈ d.laterClaims text := by
  have hstands : StandsAt [Paren.symbolOf d side] 0 text o :=
    standsAt_of_mem_occurrences (by simpa using ho)
  have hparen := (mem_parenClaims hd).mpr ⟨side, o, hstands, rfl⟩
  unfold laterClaims
  simp only [List.mem_append]
  exact .inl (.inl (.inr hparen))

/-- Each hit of a symbol makes a claim on its bytes. -/
theorem IsSymbol.exists_claim (hd : d.Distinct) (h : d.IsSymbol symbol) {text : List Char}
    (ho : o ∈ occurrences symbol.toList 0 0 text) :
    ∃ kind, Claim.ofSymbol kind symbol o ∈ d.laterClaims text := by
  cases h with
  | opening => exact ⟨_, mem_laterClaims_of_paren hd .opening ho⟩
  | closing => exact ⟨_, mem_laterClaims_of_paren hd .closing ho⟩
  | separator =>
    refine ⟨.separator, ?_⟩
    unfold laterClaims
    exact List.mem_append_left _ (List.mem_append_right _ (List.mem_map_of_mem ho))
  | @operator op hop =>
    have hsought : (op.name, .operator) ∈ d.operatorSymbols :=
      mem_operatorSymbols_iff.mpr (.inl ⟨rfl, op, hop, rfl⟩)
    exact ⟨.operator, mem_laterClaims_of_operatorSymbols hsought ho⟩
  | unary hop =>
    obtain ⟨kind, hsought⟩ := exists_kind_of_mem_unaries hop
    exact ⟨kind, mem_laterClaims_of_operatorSymbols hsought ho⟩

/-- The bytes of tokens are those of claims. -/
theorem mem_filterMap_owned (hd : d.Distinct) : s ∈ (d.tokens source).filterMap (Token.owned d) ↔
    ∃ c ∈ d.claims source.toList, c.span = s := by
  have hread : (d.tokens source).filterMap (Token.owned d) =
      (Token.sorted ((d.claims source.toList).map (·.token))).filterMap (Token.owned d) :=
    filterMap_readOperators (fun t hk => Token.owned_asUnary hk) none _
  rw [hread, List.mem_filterMap]
  constructor
  · rintro ⟨t, ht, howned⟩
    obtain ⟨c, hc, rfl⟩ := List.mem_map.mp (List.mem_mergeSort.mp ht)
    rw [(covers_of_mem_claims hd hc).owned_eq] at howned
    exact ⟨c, hc, Option.some.inj howned⟩
  · rintro ⟨c, hc, rfl⟩
    exact ⟨c.token, List.mem_mergeSort.mpr (List.mem_map_of_mem hc),
      (covers_of_mem_claims hd hc).owned_eq⟩

theorem touched_iff (hd : d.Distinct) :
    d.Touched source s ↔ ∃ c ∈ d.claims source.toList, c.span.overlaps s := by
  constructor
  · rintro ⟨t, ht, owned, howned, hover⟩
    obtain ⟨c, hc, rfl⟩ := (mem_filterMap_owned hd).mp (List.mem_filterMap.mpr ⟨t, ht, howned⟩)
    exact ⟨c, hc, hover⟩
  · rintro ⟨c, hc, hover⟩
    obtain ⟨t, ht, howned⟩ := List.mem_filterMap.mp ((mem_filterMap_owned hd).mpr ⟨c, hc, rfl⟩)
    exact ⟨t, ht, c.span, howned, hover⟩

/-! ## Hits and misses -/

/-- A symbol that is hit is claimed, at least in part. -/
theorem touched_of_mem_occurrences (hd : d.Distinct) (hsymbol : d.IsSymbol symbol)
    (ho : o ∈ occurrences symbol.toList 0 0 source.toList) :
    d.Touched source (Span.ofLength o symbol.utf8ByteSize) := by
  obtain ⟨kind, hc⟩ := hsymbol.exists_claim hd ho
  have hpos : o < o + symbol.utf8ByteSize := by
    have hwidth : width symbol.toList ≠ 0 := fun h => hsymbol.ne_nil hd (width_eq_zero h)
    rw [← utf8ByteSize_eq_width] at hwidth
    omega
  have hmem : Claim.ofSymbol kind symbol o ∈
      d.callClaims source.toList ++ d.laterClaims source.toList := List.mem_append_right _ hc
  obtain ⟨c, hc, hwins⟩ := @Claim.exists_overlaps_of_mem [] _ _ hmem hpos
  rw [← claims_eq_addAll] at hc
  refine (touched_iff hd).mpr ⟨c, hc, ?_⟩
  rcases hwins with rfl | hover
  · exact Span.overlaps_iff.mpr ⟨hpos, hpos⟩
  · exact hover

/-- Where a hit reaches into another place of its symbol, a token touches that place or cuts the
hit before it. -/
theorem touched_or_of_reaches (hd : d.Distinct) {size o' : Nat} (hlt : o' < o)
    (h : d.Touched source (Span.ofLength o' size)) :
    d.Touched source (Span.ofLength o size) ∨ d.Touched source (Span.between o' o) := by
  obtain ⟨c, hc, hover⟩ := (touched_iff hd).mp h
  have hpos := (apart_claims d source.toList).pos c hc
  by_cases hlater : c.span.overlaps (Span.ofLength o size)
  · exact .inl ((touched_iff hd).mpr ⟨c, hc, hlater⟩)
  · refine .inr ((touched_iff hd).mpr ⟨c, hc, ?_⟩)
    have hstart : (Span.between o' o).start = o' := Nat.min_eq_left hlt.le
    have hstop : (Span.between o' o).stop = o := Nat.max_eq_right hlt.le
    rw [Span.overlaps_iff] at hover hlater ⊢
    rw [hstart, hstop]
    simp only [Span.ofLength] at hover hlater
    omega

/-- **Symbols are claimed.**  Where a parenthesis stands in the text, its byte belongs to a token.
Where the separator or an operator stands, some of its bytes do, unless it can reach into itself and
stands in the shadow of a hit of its own that another token has cut. -/
theorem symbols_claimed (hd : d.Distinct) (source : String) :
    (∀ paren ∈ [d.opening, d.closing], ∀ o, StandsAt [paren] 0 source.toList o →
      d.Touched source (Span.ofLength o paren.utf8Size)) ∧
    ∀ symbol, d.IsSymbol symbol → ∀ o, StandsAt symbol.toList 0 source.toList o →
      d.Touched source (Span.ofLength o symbol.utf8ByteSize) ∨
        ¬ Unbordered symbol.toList ∧ d.Shadowed source symbol o := by
  have hall : ∀ symbol, d.IsSymbol symbol → ∀ o, StandsAt symbol.toList 0 source.toList o →
      d.Touched source (Span.ofLength o symbol.utf8ByteSize) ∨
        ¬ Unbordered symbol.toList ∧ d.Shadowed source symbol o := by
    intro symbol hsymbol o hstands
    rcases hstands.mem_occurrences_or (hsymbol.ne_nil hd) 0 with hhit | hlt | ⟨o', hhit, hlt, hreach⟩
    · exact .inl (touched_of_mem_occurrences hd hsymbol hhit)
    · simp at hlt
    · have htouched := touched_of_mem_occurrences hd hsymbol hhit
      refine (touched_or_of_reaches hd hlt htouched).imp id fun hcut => ⟨?_, o', hhit, hlt, ?_, hcut⟩
      · exact (standsAt_of_mem_occurrences hhit).not_unbordered hstands hlt hreach
      · rwa [utf8ByteSize_eq_width]
  refine ⟨fun paren hparen o hstands => ?_, hall⟩
  have hsymbol : d.IsSymbol paren.toString := by
    rcases List.mem_pair.mp hparen with rfl | rfl
    · exact .opening
    · exact .closing
  have htoList : paren.toString.toList = [paren] := by simp
  rw [← htoList] at hstands
  rw [← utf8ByteSize_toString]
  refine (hall _ hsymbol o hstands).resolve_right fun hshadow => hshadow.1 ?_
  rw [htoList]
  exact unbordered_singleton paren

/-- Two operators, and the end of one is how the other begins. -/
def Spec.comparisons : Spec :=
  { Spec.bare with operators := [⟨"!=", 1, true⟩, ⟨"==", 1, true⟩] }

/-- What `build` makes of the two operators. -/
def comparisons : Dialect where
  identifier := Standard.name
  literal := Standard.number
  call := Standard.call
  opening := '('
  closing := ')'
  separator := ","
  operators := Spec.comparisons.operators
  unaries := Spec.comparisons.unaries

theorem isSymbol_equal : comparisons.IsSymbol "==" := by
  have hop : (⟨"==", 1, true⟩ : Operator) ∈ comparisons.operators := by decide
  exact .operator hop

/-- Both operators in a text in which they overlap. -/
theorem symbols_claimed_of_comparisons : ∃ d, Dialect.build .comparisons = .ok d ∧
    d.Touched "a!===b" (Span.ofLength 1 2) ∧
    (d.Touched "a!===b" (Span.ofLength 3 2) ∨ d.Shadowed "a!===b" "==" 3) := by
  have hbuild : Dialect.build .comparisons = .ok comparisons := rfl
  obtain ⟨-, hsymbols⟩ := symbols_claimed (distinct_of_build hbuild) "a!===b"
  have hop : (⟨"!=", 1, true⟩ : Operator) ∈ comparisons.operators := by decide
  refine ⟨comparisons, hbuild, ?_, ?_⟩
  · have hstands : StandsAt "!=".toList 0 "a!===b".toList 1 :=
      ⟨['a'], ['=', '=', 'b'], by decide, by decide⟩
    apply (hsymbols "!=" (.operator hop) 1 hstands).resolve_right
    exact fun hshadow => hshadow.1 (by decide)
  · have hstands : StandsAt "==".toList 0 "a!===b".toList 3 :=
      ⟨['a', '!', '='], ['b'], by decide, by decide⟩
    exact (hsymbols "==" isSymbol_equal 3 hstands).imp id And.right

set_option maxRecDepth 4096 in
/-- The operator `==` stands at byte 3 of the text, and no token has a byte of it. -/
theorem symbols_not_claimed : ∃ d, Dialect.build .comparisons = .ok d ∧ d.IsSymbol "==" ∧
    StandsAt "==".toList 0 "a!===b".toList 3 ∧
    ¬ d.Touched "a!===b" (Span.ofLength 3 "==".utf8ByteSize) := by
  have htokens : comparisons.tokens "a!===b" =
      [⟨.identifier, "a", some 0⟩, ⟨.operator, "!=", some 1⟩, ⟨.identifier, "b", some 5⟩] := by cbv
  refine ⟨comparisons, rfl, isSymbol_equal, ⟨['a', '!', '='], ['b'], by decide, by decide⟩, ?_⟩
  rintro ⟨t, ht, owned, howned, hover⟩
  rw [htokens] at ht
  simp only [List.mem_cons, List.not_mem_nil, or_false] at ht
  rcases ht with rfl | rfl | rfl <;> cases howned <;> revert hover <;> decide

end Dialect

end Reckon
