import Mathlib
import Reckon.Proofs.Polish.Ranks
import Reckon.Proofs.Scan.Spans
import Reckon.Proofs.Standard

/-!
# The layout of the tokens of a text

Tokens come in the order of the text, no two of them own the same byte, each is cut out of the text
where it says that it stands, and each is written as its kind is declared (`Dialect.tokens_tile`).
So only declared ranks decide on the order in which they are put behind one another.
-/

namespace Reckon

open Text

/-! ## The bytes of a token -/

namespace Token

variable {d : Dialect} {source : String} {a b t : Token}

/-- What is written of the token: its text, and the parenthesis behind the name of a call. -/
def written (d : Dialect) (t : Token) : String :=
  if t.kind = .call then t.text.push d.opening else t.text

/-- The bytes that belong to the token. -/
def owned (d : Dialect) (t : Token) : Option Span :=
  t.position.map fun position => Span.ofLength position (t.written d).utf8ByteSize

/-- No byte belongs to both. -/
def Apart (d : Dialect) (a b : Token) : Prop :=
  ∀ s ∈ a.owned d, ∀ s' ∈ b.owned d, ¬ s.overlaps s'

/-- The token is cut out of the text where it stands. -/
structure CutFrom (d : Dialect) (source : String) (t : Token) (position : Nat) : Prop where
  position_eq : t.position = some position
  own : (Span.ofLength position t.text.utf8ByteSize).covered source = some t.text
  whole : (Span.ofLength position (t.written d).utf8ByteSize).covered source = some (t.written d)
  inside : position + (t.written d).utf8ByteSize ≤ source.utf8ByteSize

theorem written_asUnary (hk : t.kind = .operator) :
    ({ t with kind := .unary } : Token).written d = t.written d := by
  simp [written, hk]

theorem owned_asUnary (hk : t.kind = .operator) :
    ({ t with kind := .unary } : Token).owned d = t.owned d := by
  rw [owned, owned, written_asUnary hk]

theorem CutFrom.asUnary {position : Nat} (h : t.CutFrom d source position)
    (hk : t.kind = .operator) :
    ({ t with kind := .unary } : Token).CutFrom d source position := by
  refine ⟨h.position_eq, h.own, ?_, ?_⟩
  · rw [written_asUnary hk]
    exact h.whole
  · rw [written_asUnary hk]
    exact h.inside

end Token

theorem Text.StandsAt.covered {cs : List Char} {source : String} {o : Nat}
    (h : StandsAt cs 0 source.toList o) :
    (Span.ofLength o (width cs)).covered source = some (String.ofList cs) := by
  obtain ⟨front, back, hsource, rfl⟩ := h
  have hlength : (Span.ofLength (0 + width front) (width cs)).length = width cs := by
    simp [Span.ofLength, Span.length]
  rw [Span.covered, hlength, hsource, Span.ofLength, Nat.zero_add, dropWidth_append,
    Option.bind_some, takeWidth_append, Option.map_some]

namespace Claim

variable {d : Dialect} {c : Claim} {text : List Char}

theorem toList_written (d : Dialect) (c : Claim) :
    (c.token.written d).toList = c.own ++ c.extra d := by
  rw [Token.written, extra]
  split
  · rw [String.toList_push, own]
  · rw [List.append_nil, own]

theorem Covers.owned_eq (h : c.Covers d text) : c.token.owned d = some c.span := by
  have hspan : Span.ofLength c.span.start (width (c.own ++ c.extra d)) = c.span := by
    rw [Span.ofLength, Span.mk.injEq]
    exact ⟨rfl, h.stop_eq.symm⟩
  rw [Token.owned, h.position_eq, Option.map_some, utf8ByteSize_eq_width, toList_written, hspan]

/-- The text of a token and what belongs to it stand where the claim begins. -/
theorem Covers.cutFrom {source : String} (h : c.Covers d source.toList) :
    c.token.CutFrom d source c.span.start := by
  have hstands := h.stands
  rw [← toList_written] at hstands
  obtain ⟨front, back, hsource, hstart⟩ := h.stands
  have hown : StandsAt c.token.text.toList 0 source.toList c.span.start :=
    ⟨front, c.extra d ++ back, by rw [hsource, List.append_assoc, own], hstart⟩
  refine ⟨h.position_eq, ?_, ?_, ?_⟩
  · rw [utf8ByteSize_eq_width, hown.covered, String.ofList_toList]
  · rw [utf8ByteSize_eq_width, hstands.covered, String.ofList_toList]
  · rw [utf8ByteSize_eq_width, toList_written, utf8ByteSize_eq_width, hsource, hstart]
    simp only [width_append]
    omega

end Claim

/-! ## How kinds are written -/

namespace Dialect

variable {d : Dialect} {text : List Char} {source : String} {c : Claim} {t : Token}

/-- How a token of a text may be written; no token of a text is a placeholder. -/
inductive Allows (d : Dialect) : TokenKind → String → Prop
  | literal {text : String} : Allows d .literal text
  | identifier {text : String} (h : ¬ d.isOperatorName text) : Allows d .identifier text
  | call {text : String} (h : ¬ d.isOperatorName text) : Allows d .call text
  | operator {op : Operator} (h : op ∈ d.operators) : Allows d .operator op.name
  | unary {op : UnaryOperator} (h : op ∈ d.unaries) : Allows d .unary op.name
  | separator : Allows d .separator d.separator
  | opening : Allows d .opening d.opening.toString
  | closing : Allows d .closing d.closing.toString

theorem allows_of_mem_claims (h : c ∈ d.claims text) : d.Allows c.token.kind c.token.text := by
  rcases mem_claims h with h | h | h | h | h | ⟨s, hs, h⟩
  · obtain ⟨m, -, hm⟩ := List.mem_filterMap.mp h
    split at hm
    · split at hm
      · cases hm
      · rename_i hname
        exact Option.some.inj hm ▸ .call hname
    · cases hm
  · obtain ⟨m, -, rfl⟩ := List.mem_map.mp h
    exact .literal
  · obtain ⟨m, -, hm⟩ := List.mem_filterMap.mp h
    split at hm
    · cases hm
    · rename_i hname
      exact Option.some.inj hm ▸ .identifier hname
  · obtain ⟨⟨offset, char⟩, -, hm⟩ := List.mem_filterMap.mp h
    dsimp only at hm
    split at hm
    · rename_i hchar
      exact Option.some.inj hm ▸ hchar ▸ .opening
    · split at hm
      · rename_i hchar
        exact Option.some.inj hm ▸ hchar ▸ .closing
      · cases hm
  · obtain ⟨offset, -, rfl⟩ := List.mem_map.mp h
    exact .separator
  · obtain ⟨offset, -, rfl⟩ := List.mem_map.mp h
    obtain ⟨name, kind⟩ := s
    rcases exists_of_mem_operatorSymbols hs with ⟨rfl, op, hop, rfl⟩ | ⟨rfl, op, hop, rfl⟩
    · exact .operator hop
    · exact .unary hop

/-- An operator is read as a unary one only if it is declared as one. -/
theorem Allows.readOperator (h : d.Allows t.kind t.text) (previous next : Option Token) :
    d.Allows (d.readOperator previous t next).kind (d.readOperator previous t next).text := by
  rcases readOperator_changes previous t next with hread | ⟨-, hu, hread⟩
  · rw [hread]
    exact h
  · obtain ⟨op, hfound⟩ := Option.isSome_iff_exists.mp hu
    obtain ⟨hname, hop⟩ : (op.name == t.text) = true ∧ op ∈ d.unaries :=
      ⟨List.find?_some (p := fun op : UnaryOperator => op.name == t.text) hfound,
        List.mem_of_find?_eq_some hfound⟩
    rw [hread, ← beq_iff_eq.mp hname]
    exact .unary hop

theorem allows_of_mem_tokens (ht : t ∈ d.tokens source) : d.Allows t.kind t.text :=
  forall_mem_tokens (P := fun t => d.Allows t.kind t.text)
    (fun previous _ next h => h.readOperator previous next) (fun _ => allows_of_mem_claims) t ht

theorem Allows.isSome_rank? (h : d.Allows t.kind t.text) (hk : t.kind.isRanked) :
    (d.rank? t).isSome := by
  unfold rank?
  generalize t.kind = kind, t.text = text at h hk
  cases h with
  | operator hop => simp [operator?, List.find?_isSome]; exact ⟨_, hop, rfl⟩
  | unary hop => simp [unary?, List.find?_isSome]; exact ⟨_, hop, rfl⟩
  | separator => rfl
  | _ => cases hk

/-! ## Tiles -/

theorem pairwise_apart_tokens (hd : d.Distinct) (source : String) :
    (d.tokens source).Pairwise (Token.Apart d) := by
  obtain ⟨tiles, hcovers, htiles, hmap⟩ := exists_tiles_map hd source
  have howned := hmap (Token.owned d) fun t hk => Token.owned_asUnary hk
  let apart : Option Span → Option Span → Prop := fun a b => ∀ s ∈ a, ∀ s' ∈ b, ¬ s.overlaps s'
  have htokens : ((d.tokens source).map (Token.owned d)).Pairwise apart := by
    rw [howned, List.pairwise_map]
    refine htiles.ordered.imp_of_mem ?_
    intro a b ha hb hab s hs s' hs' hoverlaps
    rw [(hcovers a ha).owned_eq, Option.mem_some_iff] at hs
    rw [(hcovers b hb).owned_eq, Option.mem_some_iff] at hs'
    rw [← hs, ← hs', Claim.overlaps_iff] at hoverlaps
    omega
  rwa [List.pairwise_map] at htokens

theorem cutFrom_of_mem_tokens (hd : d.Distinct) (ht : t ∈ d.tokens source) :
    ∃ position, t.CutFrom d source position := by
  obtain ⟨c, hc, rfl | ⟨hk, rfl⟩⟩ := exists_claim_of_mem_tokens ht
  · exact ⟨_, (covers_of_mem_claims hd hc).cutFrom⟩
  · exact ⟨_, (covers_of_mem_claims hd hc).cutFrom.asUnary hk⟩

/-- The tokens of a text stand in its order, own no byte together, are cut out of the text and are
written as their kinds allow.  Whatever token the conversion asks for its rank, the rank is
declared; so what ranks otherwise is the same to it. -/
theorem tokens_tile (hd : d.Distinct) (source : String) :
    (d.tokens source).Pairwise Token.Precedes ∧
    (d.tokens source).Pairwise (Token.Apart d) ∧
    (∀ t ∈ d.tokens source, (∃ position, t.CutFrom d source position) ∧ d.Allows t.kind t.text) ∧
    (∀ front back s, d.tokens source = front ++ back → Polish.run d .start front = .ok s →
      ∀ t, s.Asks back.head? t → (d.rank? t).isSome) ∧
    ∀ d' : Dialect, d'.opening = d.opening → d'.closing = d.closing →
      (∀ t rank, d.rank? t = some rank → d'.rank t = rank) →
      Polish.ofTokens d' (d.tokens source) = Polish.ofTokens d (d.tokens source) := by
  have hranked : ∀ t ∈ d.tokens source, t.kind.isRanked → (d.rank? t).isSome :=
    fun t ht => (allows_of_mem_tokens ht).isSome_rank?
  refine ⟨pairwise_precedes_tokens hd source, pairwise_apart_tokens hd source,
    fun t ht => ⟨cutFrom_of_mem_tokens hd ht, allows_of_mem_tokens ht⟩, ?_,
    fun d' hopening hclosing => Polish.ofTokens_congr hranked hopening hclosing⟩
  intro front back s hsplit hrun t hasks
  rw [hsplit, List.forall_mem_append] at hranked
  have hs := (Polish.ranked_start d).run hranked.1 hrun
  exact hs.of_asks (fun t ht => hranked.2 t (List.mem_of_mem_head? ht)) hasks

/-- Operators that overlap, one with a long character, and one that is also a sign. -/
def Spec.arrows : Spec where
  identifier := Spec.bare.identifier
  literal := Spec.bare.literal
  opening := '('
  closing := ')'
  separator := ","
  operators := [⟨"-", 1, true⟩, ⟨"->", 2, false⟩, ⟨"→", 2, false⟩]
  unaries := [⟨"-", 3, .before⟩]

set_option maxRecDepth 4096 in
/-- The longer symbol is taken, the long character is three bytes wide, and a sign that has an
operator before it stays a sign. -/
theorem tokens_tile_of_arrows : ∃ d, Dialect.build .arrows = .ok d ∧
    d.tokens "a→-f(2->-b)" =
      [⟨.identifier, "a", some 0⟩, ⟨.operator, "→", some 1⟩, ⟨.unary, "-", some 4⟩,
        ⟨.call, "f", some 5⟩, ⟨.literal, "2", some 7⟩, ⟨.operator, "->", some 8⟩,
        ⟨.unary, "-", some 10⟩, ⟨.identifier, "b", some 11⟩, ⟨.closing, ")", some 12⟩] ∧
    (d.tokens "a→-f(2->-b)").Pairwise (Token.Apart d) :=
  have hbuild : Dialect.build .arrows = .ok ⟨Standard.name, Standard.number, Standard.call, '(',
    ')', ",", Spec.arrows.operators, Spec.arrows.unaries⟩ := rfl
  ⟨_, hbuild, by cbv, (tokens_tile (distinct_of_build hbuild) _).2.1⟩

end Dialect

end Reckon
