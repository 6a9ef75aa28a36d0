import Reckon.Check.Parens
import Reckon.Proofs.RoundTrip.Expr
import Reckon.Proofs.Scan.Marks

/-!
# Balanced text

Text is balanced when pairing its parentheses leaves the free and the stray ones as they were.
Expressions are written as balanced text.
-/

namespace Reckon

open Text

variable {cs ds : List Char}

namespace Paren

/-- The parentheses of a text whose first character stands at `offset`. -/
def parensFrom (offset : Nat) (cs : List Char) : List Paren :=
  (positioned offset cs).filterMap fun (o, c) =>
    if c = '(' then some ⟨.opening, c, o⟩ else if c = ')' then some ⟨.closing, c, o⟩ else none

/-- Pairing goes over the text and changes nothing but the pairs. -/
def Balanced (cs : List Char) : Prop := ∀ (offset : Nat) (s : Pairing),
  ∃ paired, (parensFrom offset cs).foldl Pairing.add s = ⟨s.free, paired, s.stray⟩

theorem balanced_nil : Balanced [] := fun _ s => ⟨s.paired, rfl⟩

theorem parensFrom_append (offset : Nat) (cs ds : List Char) :
    parensFrom offset (cs ++ ds) = parensFrom offset cs ++ parensFrom (offset + width cs) ds := by
  simp [parensFrom, positioned_append]

theorem Balanced.append (h : Balanced cs) (h' : Balanced ds) : Balanced (cs ++ ds) := by
  intro offset s
  obtain ⟨paired, hcs⟩ := h offset s
  obtain ⟨paired', hds⟩ := h' (offset + width cs) ⟨s.free, paired, s.stray⟩
  exact ⟨paired', by rw [parensFrom_append, List.foldl_append, hcs, hds]⟩

theorem balanced_of_ne (h : ∀ c ∈ cs, c ≠ '(' ∧ c ≠ ')') : Balanced cs := by
  intro offset s
  have hnil : parensFrom offset cs = [] := by
    refine List.filterMap_eq_nil_iff.mpr fun x hx => ?_
    obtain ⟨hopen, hclose⟩ := h x.2 (mem_of_mem_positioned hx)
    simp [hopen, hclose]
  exact ⟨s.paired, by rw [hnil]; rfl⟩

/-- A pair of parentheses around balanced text. -/
theorem Balanced.group (h : Balanced cs) : Balanced ('(' :: (cs ++ [')'])) := by
  intro offset s
  let opener : Paren := ⟨.opening, '(', offset⟩
  obtain ⟨paired, hcs⟩ := h (offset + '('.utf8Size) ⟨opener :: s.free, s.paired, s.stray⟩
  have hopen : parensFrom offset ('(' :: (cs ++ [')'])) =
      opener :: parensFrom (offset + '('.utf8Size) (cs ++ [')']) := rfl
  rw [hopen, parensFrom_append, List.foldl_cons, List.foldl_append]
  show ∃ paired', List.foldl Pairing.add (List.foldl Pairing.add
    ⟨opener :: s.free, s.paired, s.stray⟩ _) _ = _
  rw [hcs]
  exact ⟨_, rfl⟩

/-- A balanced text passes the check. -/
theorem Balanced.passes {source : String} (h : Balanced source.toList) :
    (inspect .standard source).passes := by
  obtain ⟨paired, hpair⟩ := h 0 ⟨[], [], []⟩
  have hinspect : pair (inText .standard source.toList) = ⟨[], paired, []⟩ := hpair
  simp [inspect, hinspect, Verdicts.passes]

end Paren

open Paren

/-! ## Expressions -/

theorem ne_paren_of_isWord {c : Char} (h : isWord c) : c ≠ '(' ∧ c ≠ ')' := by
  constructor
  · rintro rfl
    revert h
    decide
  · rintro rfl
    revert h
    decide

theorem Name.balanced (n : Name) : Balanced n.chars :=
  balanced_of_ne fun _ hc => ne_paren_of_isWord (n.isWord_of_mem hc)

theorem Numeral.balanced (n : Numeral) : Balanced n.chars := by
  refine balanced_of_ne fun c hc => ?_
  rcases n.digit_or_point hc with h | rfl
  · exact ne_paren_of_isWord (Standard.isWord_of_digit h)
  · decide

theorem balanced_singleton {c : Char} (h : c ≠ '(' ∧ c ≠ ')') : Balanced [c] :=
  balanced_of_ne (by simpa using h)

theorem BinaryMark.balanced (op : BinaryMark) : Balanced [op.char] :=
  balanced_singleton (by cases op <;> decide)

mutual

theorem Expr.balanced : ∀ e : Expr, Balanced e.written.toList
  | .number n => by simpa [written] using n.balanced
  | .name n => by simpa [written] using n.balanced
  | .binary op l r => by
    have h := ((l.balanced.append op.balanced).append r.balanced).group
    simpa [written] using h
  | .negate e => by
    have h := ((balanced_singleton (c := '-') (by decide)).append e.balanced).group
    simpa [written] using h
  | .factorial e => by
    have h := (e.balanced.append (balanced_singleton (c := '!') (by decide))).group
    simpa [written] using h
  | .call f args => by
    have h := f.balanced.append (Expr.balancedAll args).group
    simpa [written] using h

theorem Expr.balancedAll : ∀ es : List Expr, Balanced (Expr.writtenAll es).toList
  | [] => balanced_nil
  | [e] => by simpa [writtenAll] using e.balanced
  | e :: e' :: es => by
    have hcomma : Balanced [','] := balanced_singleton (by decide)
    have h := (e.balanced.append hcomma).append (Expr.balancedAll (e' :: es))
    simpa [writtenAll] using h

end

end Reckon
