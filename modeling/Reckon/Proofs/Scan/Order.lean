import Reckon.Proofs.Scan.Marks

/-!
# Tokens in order

Tokens whose positions increase are what `Token.sorted` makes of them in any order.  So the scan of
a text of lexemes gives their tokens one behind another.
-/

namespace Reckon

namespace Token

variable {a b : Token} {ts us : List Token}

/-- `a` stands before `b`. -/
def Precedes (a b : Token) : Prop := ∃ p q, a.position = some p ∧ b.position = some q ∧ p < q

theorem order_eq_compareLex : order = compareLex (compareLex (compareOn position) (compareOn text))
    (compareOn fun t => t.kind.rank) := rfl

instance : Std.TransCmp order := by
  rw [order_eq_compareLex]
  infer_instance

theorem position_eq_of_order (h : order a b = .eq) : a.position = b.position := by
  simp only [order, Ordering.then_eq_eq, Std.LawfulEqOrd.compare_eq_iff_eq] at h
  exact h.1.1

theorem Precedes.order_eq (h : Precedes a b) : order a b = .lt := by
  obtain ⟨p, q, ha, hb, hpq⟩ := h
  have hcompare : compare a.position b.position = .lt := by
    rw [ha, hb]
    simpa [compare] using hpq
  simp [order, hcompare]

/-- Tokens at increasing positions are told apart by their positions. -/
theorem eq_of_position (h : us.Pairwise Precedes) (ha : a ∈ us) (hb : b ∈ us)
    (hab : a.position = b.position) : a = b := by
  have hne : ∀ {a b : Token}, Precedes a b → a.position ≠ b.position := by
    rintro a b ⟨p, q, ha, hb, hpq⟩ heq
    rw [ha, hb] at heq
    cases heq
    omega
  rw [List.pairwise_iff_getElem] at h
  obtain ⟨i, hi, rfl⟩ := List.getElem_of_mem ha
  obtain ⟨j, hj, rfl⟩ := List.getElem_of_mem hb
  rcases Nat.lt_trichotomy i j with hij | rfl | hij
  · exact absurd hab (hne (h i j hi hj hij))
  · rfl
  · exact absurd hab.symm (hne (h j i hj hi hij))

theorem sorted_eq_of_perm (hperm : ts.Perm us) (hus : us.Pairwise Precedes) : sorted ts = us := by
  have hsorted : (sorted ts).Perm us := (List.mergeSort_perm ts _).trans hperm
  refine List.Perm.eq_of_pairwise ?_ (List.pairwise_mergeSort ?_ ?_ ts) ?_ hsorted
  · intro a b ha hb hle hge
    have heq : order a b = .eq := Std.OrientedCmp.isLE_antisymm hle hge
    exact eq_of_position hus (hsorted.mem_iff.mp ha) hb (position_eq_of_order heq)
  · intro a b c hab hbc
    exact Std.TransCmp.isLE_trans hab hbc
  · intro a b
    have hswap : order b a = (order a b).swap := Std.OrientedCmp.eq_swap
    rw [hswap]
    cases order a b <;> rfl
  · exact hus.imp fun h => by rw [h.order_eq]; rfl

end Token

namespace Lexeme

variable {ls : List Lexeme}

/-- The tokens of lexemes as they are scanned. -/
def scannedTokens (offset : Nat) (ls : List Lexeme) : List Token :=
  (placed offset ls).map fun x => x.2.scannedToken x.1

theorem pairwise_scannedTokens (offset : Nat) (ls : List Lexeme) :
    (scannedTokens offset ls).Pairwise Token.Precedes := by
  induction ls generalizing offset with
  | nil => exact List.Pairwise.nil
  | cons l ls ih =>
    refine List.pairwise_cons.mpr ⟨fun t ht => ?_, ih _⟩
    obtain ⟨x, hx, rfl⟩ := List.mem_map.mp ht
    have hle := le_of_mem_placed hx
    have hpos := l.width_chars_pos
    exact ⟨offset, x.1, rfl, rfl, by omega⟩

/-- A text of lexemes is scanned into their tokens. -/
theorem sorted_claims (h : Separated ls) :
    Token.sorted ((Dialect.standard.claims (text ls)).map (·.token)) = scannedTokens 0 ls := by
  have hperm := (perm_claims h).map (·.token)
  have htokens : (tiles 0 ls).map (·.token) = scannedTokens 0 ls := by
    simp [tiles, scannedTokens, claim]
  rw [htokens] at hperm
  exact Token.sorted_eq_of_perm hperm (pairwise_scannedTokens 0 ls)

end Lexeme

end Reckon
