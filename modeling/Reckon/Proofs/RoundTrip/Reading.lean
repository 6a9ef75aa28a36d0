import Reckon.Proofs.RoundTrip.Expr
import Reckon.Proofs.Scan.Order

/-!
# Reading lexemes

The tokens of a text of lexemes that fit together are the tokens of the lexemes: a minus is read as
a sign exactly where an operand is expected.
-/

namespace Reckon.Lexeme

open Text

variable {ls : List Lexeme} {l : Lexeme} {previous next : Option Token} {offset : Nat}

/-- The tokens of lexemes, the first one at `offset`. -/
def tokens (offset : Nat) (ls : List Lexeme) : List Token :=
  (placed offset ls).map fun x => x.2.token x.1

@[simp] theorem tokens_nil (offset : Nat) : tokens offset [] = [] := rfl

theorem tokens_cons (offset : Nat) (l : Lexeme) (ls : List Lexeme) :
    tokens offset (l :: ls) = l.token offset :: tokens (offset + width l.chars) ls := rfl

theorem tokens_append (offset : Nat) (ls ms : List Lexeme) :
    tokens offset (ls ++ ms) = tokens offset ls ++ tokens (offset + width (text ls)) ms := by
  simp [tokens, placed_append]

/-! ## Operators -/

/-- What the token before `l` must be for `l` to be read as it is meant. -/
structure ReadsAfter (previous : Option Token) (l : Lexeme) : Prop where
  sign : l = mark .sign → Dialect.standard.allowsBefore previous
  binary : ∀ op, l = mark (.binary op) → ¬ Dialect.standard.allowsBefore previous

/-- What else an operator between operands may be is a sign before its operand. -/
theorem unary?_binary (op : BinaryMark) :
    Dialect.standard.unary? (String.ofList [op.char]) = none ∨
      ∃ u, Dialect.standard.unary? (String.ofList [op.char]) = some u ∧ u.side = .before := by
  cases op with
  | plus => exact .inr ⟨⟨"+", 3, .before⟩, by decide, rfl⟩
  | minus => exact .inr ⟨⟨"-", 3, .before⟩, by decide, rfl⟩
  | times | divide | remainder | power => exact .inl (by decide)

theorem unary?_sign :
    Dialect.standard.unary? (String.ofList [Mark.sign.char]) = some ⟨"-", 3, .before⟩ := by decide

theorem unary?_factorial :
    Dialect.standard.unary? (String.ofList [Mark.factorial.char]) = some ⟨"!", 5, .after⟩ := by
  decide

theorem readOperator_token (h : ReadsAfter previous l) (offset : Nat) (next : Option Token) :
    Dialect.standard.readOperator previous (l.scannedToken offset) next = l.token offset := by
  cases l with
  | mark m =>
    cases m with
    | binary op =>
      rcases unary?_binary op with hu | ⟨u, hu, hside⟩
      · exact Dialect.readOperator_of_none hu previous next
      · have hread := Dialect.readOperator_of_before
          (t := (mark (.binary op)).scannedToken offset) rfl hu hside previous next
        rwa [if_neg (h.binary op rfl)] at hread
    | sign =>
      have hread := Dialect.readOperator_of_before
        (t := (mark .sign).scannedToken offset) rfl unary?_sign rfl previous next
      rwa [if_pos (h.sign rfl)] at hread
    | _ => rfl
  | _ => rfl

theorem allowsBefore_token (offset : Nat) (l : Lexeme) :
    Dialect.standard.allowsBefore (some (l.token offset)) = l.expects := by
  cases l with
  | mark m =>
    cases m with
    | sign => exact congrArg (Option.any (·.side == .before)) unary?_sign
    | factorial => exact congrArg (Option.any (·.side == .before)) unary?_factorial
    | _ => rfl
  | _ => rfl

theorem Fits.readsAfter {next : Lexeme} (h : Fits l next) (offset : Nat) :
    ReadsAfter (some (l.token offset)) next := by
  rw [Fits] at h
  constructor
  · rintro rfl
    rw [allowsBefore_token]
    by_contra hl
    rw [if_neg hl] at h
    obtain ⟨m, hm, -, hsign⟩ := h
    exact hsign (Lexeme.mark.inj hm).symm
  · rintro op rfl hl
    rw [allowsBefore_token] at hl
    rw [if_pos hl] at h
    exact h op rfl

theorem readOperators_scannedTokens (h : ls.IsChain Fits)
    (hprev : ∀ l ∈ ls.head?, ReadsAfter previous l) :
    Dialect.standard.readOperators previous (scannedTokens offset ls) = tokens offset ls := by
  induction ls generalizing previous offset with
  | nil => rfl
  | cons l ls ih =>
    have hl := readOperator_token (hprev l rfl) offset
      (scannedTokens (offset + width l.chars) ls).head?
    have hrest : ∀ next ∈ ls.head?, ReadsAfter (some (l.token offset)) next := by
      intro next hnext
      cases ls with
      | nil => cases hnext
      | cons next' ls =>
        cases hnext
        exact ((List.isChain_cons_cons.mp h).1).readsAfter offset
    have hcons : scannedTokens offset (l :: ls) =
        l.scannedToken offset :: scannedTokens (offset + width l.chars) ls := rfl
    rw [hcons, Dialect.readOperators, hl, ih h.tail hrest, tokens_cons]

/-- The tokens of a text of lexemes. -/
theorem tokens_text {source : String} (hsource : source.toList = text ls) (h : Fitting ls) :
    Dialect.standard.tokens source = tokens 0 ls := by
  rw [Dialect.tokens, hsource, sorted_claims h.separated]
  refine readOperators_scannedTokens h.chain fun l hl => ⟨fun _ => rfl, fun op hop => ?_⟩
  rw [hop] at hl
  exact absurd hl (h.head op)

end Reckon.Lexeme
