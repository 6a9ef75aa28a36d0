import Reckon.Proofs.Scan.Order
import Reckon.Proofs.Scan.Stretches

/-!
# The tokens of any text

The claims on a text are disjoint, so put in order they are tiles and the tokens are theirs.  A
claim that is made on some bytes wins, or one that overlaps it does.
-/

namespace Reckon

/-! ## Claims that are made -/

namespace Claim

variable {taken cs : List Claim} {c x : Claim}

/-- Claims on some bytes each, no two on the same byte. -/
structure Apart (cs : List Claim) : Prop where
  pos : ∀ c ∈ cs, c.span.start < c.span.stop
  disjoint : cs.Pairwise fun a b => ¬ a.span.overlaps b.span

theorem Apart.add (h : Apart taken) (c : Claim) : Apart (add taken c) := by
  unfold Claim.add
  split
  · exact h
  · rename_i hnot
    rw [Bool.or_eq_true, not_or] at hnot
    obtain ⟨hempty, hany⟩ := hnot
    refine ⟨List.forall_mem_cons.mpr ⟨?_, h.pos⟩, List.pairwise_cons.mpr ⟨?_, h.disjoint⟩⟩
    · have hord := c.span.ordered
      have hne : c.span.start ≠ c.span.stop := by simpa [Span.isEmpty] using hempty
      omega
    · intro x hx hov
      refine hany (List.any_eq_true.mpr ⟨x, hx, ?_⟩)
      rw [overlaps_iff] at hov ⊢
      omega

theorem Apart.addAll (h : Apart taken) (cs : List Claim) : Apart (addAll taken cs) := by
  induction cs generalizing taken with
  | nil => exact h
  | cons c cs ih => exact ih (h.add c)

theorem mem_addAll_of_mem (h : x ∈ taken) : x ∈ addAll taken cs := by
  induction cs generalizing taken with
  | nil => exact h
  | cons c cs ih => exact ih (mem_add_of_mem h)

/-- A claim on some bytes is taken, or one of these bytes is. -/
theorem exists_overlaps_of_mem (hc : c ∈ cs) (hpos : c.span.start < c.span.stop) :
    ∃ x ∈ addAll taken cs, x = c ∨ x.span.overlaps c.span := by
  induction cs generalizing taken with
  | nil => cases hc
  | cons d cs ih =>
    rcases List.mem_cons.mp hc with rfl | hc
    · show ∃ x ∈ addAll (add taken c) cs, _
      by_cases hany : taken.any (·.span.overlaps c.span)
      · obtain ⟨x, hx, hov⟩ := List.any_eq_true.mp hany
        exact ⟨x, mem_addAll_of_mem (mem_add_of_mem hx), .inr hov⟩
      · have hempty : c.span.isEmpty = false := by
          simp [Span.isEmpty]
          omega
        have hmem : c ∈ add taken c := by simp [Claim.add, hempty, hany]
        exact ⟨c, mem_addAll_of_mem hmem, .inl rfl⟩
    · exact ih hc

/-- Claims that are apart, in the order of the text. -/
theorem Apart.exists_tiled (h : Apart cs) : ∃ tiles, tiles.Perm cs ∧ Tiled tiles := by
  let le : Claim → Claim → Bool := fun a b => decide (a.span.start ≤ b.span.start)
  have hperm : (cs.mergeSort le).Perm cs := List.mergeSort_perm cs le
  have hpos : ∀ c ∈ cs.mergeSort le, c.span.start < c.span.stop :=
    fun c hc => h.pos c (hperm.mem_iff.mp hc)
  refine ⟨cs.mergeSort le, hperm, hpos, ?_⟩
  have hsorted : (cs.mergeSort le).Pairwise fun a b => le a b := by
    refine List.pairwise_mergeSort ?_ ?_ cs
    · intro a b c hab hbc
      simp only [le, decide_eq_true_eq] at hab hbc ⊢
      omega
    · intro a b
      simp only [le, Bool.or_eq_true, decide_eq_true_eq]
      omega
  have hdisjoint : (cs.mergeSort le).Pairwise fun a b => ¬ a.span.overlaps b.span := by
    refine (hperm.pairwise_iff ?_).mpr h.disjoint
    intro a b hab hba
    rw [overlaps_iff] at hab hba
    omega
  refine (hsorted.and hdisjoint).imp_of_mem ?_
  rintro a b - hb ⟨hle, hnot⟩
  have hb := hpos b hb
  rw [overlaps_iff] at hnot
  simp only [le, decide_eq_true_eq] at hle
  omega

end Claim

namespace Dialect

variable {d : Dialect} {text : List Char} {c : Claim}

theorem apart_claims (d : Dialect) (text : List Char) : Claim.Apart (d.claims text) := by
  rw [claims_eq_addAll]
  exact Claim.Apart.addAll ⟨by simp, List.Pairwise.nil⟩ _

/-- Tiles stand at increasing positions. -/
theorem pairwise_precedes {tiles : List Claim} (htiles : Claim.Tiled tiles)
    (hcovers : ∀ c ∈ tiles, c.Covers d text) :
    (tiles.map (·.token)).Pairwise Token.Precedes := by
  rw [List.pairwise_map]
  refine htiles.ordered.imp_of_mem ?_
  intro a b ha hb hab
  have hpos := htiles.pos a ha
  exact ⟨a.span.start, b.span.start, (hcovers a ha).position_eq, (hcovers b hb).position_eq,
    by omega⟩

/-- The tokens before operators are read are those of the claims in order. -/
theorem exists_tiles (hd : d.Distinct) (text : List Char) :
    ∃ tiles, tiles.Perm (d.claims text) ∧ Claim.Tiled tiles ∧
      Token.sorted ((d.claims text).map (·.token)) = tiles.map (·.token) := by
  obtain ⟨tiles, hperm, htiles⟩ := (apart_claims d text).exists_tiled
  have hcovers : ∀ c ∈ tiles, c.Covers d text :=
    fun c hc => covers_of_mem_claims hd (hperm.mem_iff.mp hc)
  exact ⟨tiles, hperm, htiles,
    Token.sorted_eq_of_perm (hperm.symm.map _) (pairwise_precedes htiles hcovers)⟩

/-! ## Reading operators -/

/-- What is the same for an operator and a unary operator does not depend on how operators are
read. -/
theorem filterMap_readOperators {α : Type} {f : Token → Option α}
    (hf : ∀ t, t.kind = .operator → f { t with kind := .unary } = f t) (previous : Option Token)
    (ts : List Token) : (d.readOperators previous ts).filterMap f = ts.filterMap f := by
  induction ts generalizing previous with
  | nil => rfl
  | cons t ts ih =>
    have ht : f (d.readOperator previous t ts.head?) = f t := by
      rcases d.readOperator_cases previous t ts.head? with h | ⟨hk, h⟩
      · rw [h]
      · rw [h, hf t hk]
    rw [readOperators, List.filterMap_cons, List.filterMap_cons, ht, ih]

theorem mem_readOperators {t : Token} {previous : Option Token} {ts : List Token}
    (h : t ∈ d.readOperators previous ts) :
    ∃ u ∈ ts, t = u ∨ u.kind = .operator ∧ t = { u with kind := .unary } := by
  induction ts generalizing previous with
  | nil => cases h
  | cons u ts ih =>
    rcases List.mem_cons.mp h with rfl | h
    · exact ⟨u, List.mem_cons_self, d.readOperator_cases previous u ts.head?⟩
    · obtain ⟨u', hu', ht⟩ := ih h
      exact ⟨u', List.mem_cons_of_mem u hu', ht⟩

/-- A token of a text is the token of a claim, but for the reading of operators. -/
theorem exists_claim_of_mem_tokens {source : String} {t : Token} (h : t ∈ d.tokens source) :
    ∃ c ∈ d.claims source.toList, t = c.token ∨
      c.token.kind = .operator ∧ t = { c.token with kind := .unary } := by
  obtain ⟨u, hu, ht⟩ := mem_readOperators h
  obtain ⟨c, hc, rfl⟩ := List.mem_map.mp (List.mem_mergeSort.mp hu)
  exact ⟨c, hc, ht⟩

theorem position_of_mem_tokens (hd : d.Distinct) {source : String} {t : Token}
    (h : t ∈ d.tokens source) : t.position.isSome := by
  obtain ⟨c, hc, ht⟩ := exists_claim_of_mem_tokens h
  have hposition := (covers_of_mem_claims hd hc).position_eq
  rcases ht with rfl | ⟨-, rfl⟩ <;> simp [hposition]

/-- The tokens of a text are those of tiles, as far as the reading of operators does not show. -/
theorem exists_tiles_map (hd : d.Distinct) (source : String) :
    ∃ tiles : List Claim, (∀ c ∈ tiles, c.Covers d source.toList) ∧ Claim.Tiled tiles ∧
      ∀ {α : Type} (f : Token → α), (∀ t, t.kind = .operator → f { t with kind := .unary } = f t) →
        (d.tokens source).map f = tiles.map fun c => f c.token := by
  obtain ⟨tiles, hperm, htiles, hsorted⟩ := exists_tiles hd source.toList
  refine ⟨tiles, fun c hc => covers_of_mem_claims hd (hperm.mem_iff.mp hc), htiles, ?_⟩
  intro α f hf
  have hread := filterMap_readOperators (d := d) (f := some ∘ f)
    (fun t ht => congrArg some (hf t ht)) none (tiles.map (·.token))
  rwa [List.filterMap_eq_map, ← hsorted, ← tokens, hsorted, List.map_map] at hread

theorem pairwise_precedes_tokens (hd : d.Distinct) (source : String) :
    (d.tokens source).Pairwise Token.Precedes := by
  obtain ⟨tiles, hcovers, htiles, hmap⟩ := exists_tiles_map hd source
  have hprecedes := pairwise_precedes htiles hcovers
  have hpositions := hmap Token.position fun t _ => rfl
  let before : Option Nat → Option Nat → Prop :=
    fun a b => ∃ p q, a = some p ∧ b = some q ∧ p < q
  have htokens : ((d.tokens source).map (·.position)).Pairwise before := by
    rw [List.pairwise_map] at hprecedes
    rw [hpositions, List.pairwise_map]
    exact hprecedes
  rwa [List.pairwise_map] at htokens

/-- No token stands twice in a text. -/
theorem nodup_tokens (hd : d.Distinct) (source : String) : (d.tokens source).Nodup := by
  refine (pairwise_precedes_tokens hd source).imp ?_
  rintro a b ⟨p, q, ha, hb, hpq⟩ rfl
  rw [ha, Option.some.injEq] at hb
  omega

end Dialect

end Reckon
