import Reckon.Proofs.Scan.Lexeme

/-!
# Expressions with all their parentheses

Expressions, the text that spells them out with every parenthesis, and the lexemes of that text.
Which lexemes stand next to each other is a matter of pairs alone (`Lexeme.Fits`).
-/

namespace Reckon

/-! ## Syntax -/

inductive Expr where
  | number (n : Numeral)
  | name (n : Name)
  | binary (op : BinaryMark) (left right : Expr)
  | negate (e : Expr)
  | factorial (e : Expr)
  | call (f : Name) (args : List Expr)

mutual

/-- The text with all parentheses. -/
def Expr.written : Expr → String
  | .number n => String.ofList n.chars
  | .name n => String.ofList n.chars
  | .binary op l r => "(" ++ l.written ++ String.singleton op.char ++ r.written ++ ")"
  | .negate e => "(-" ++ e.written ++ ")"
  | .factorial e => "(" ++ e.written ++ "!)"
  | .call f args => String.ofList f.chars ++ "(" ++ Expr.writtenAll args ++ ")"

/-- Arguments with commas between them. -/
def Expr.writtenAll : List Expr → String
  | [] => ""
  | [e] => e.written
  | e :: e' :: es => e.written ++ "," ++ Expr.writtenAll (e' :: es)

end

mutual

def Expr.lexemes : Expr → List Lexeme
  | .number n => [.number n]
  | .name n => [.name n]
  | .binary op l r =>
    .mark .opening :: (l.lexemes ++ .mark (.binary op) :: (r.lexemes ++ [.mark .closing]))
  | .negate e => .mark .opening :: .mark .sign :: (e.lexemes ++ [.mark .closing])
  | .factorial e => .mark .opening :: (e.lexemes ++ [.mark .factorial, .mark .closing])
  | .call f args => .call f :: (Expr.lexemesAll args ++ [.mark .closing])

def Expr.lexemesAll : List Expr → List Lexeme
  | [] => []
  | [e] => e.lexemes
  | e :: e' :: es => e.lexemes ++ .mark .separator :: Expr.lexemesAll (e' :: es)

end

/-! ## The text -/

mutual

theorem Expr.toList_written : ∀ e : Expr, e.written.toList = Lexeme.text e.lexemes
  | .number n => by simp [written, lexemes, Lexeme.chars, Lexeme.face]
  | .name n => by simp [written, lexemes, Lexeme.chars, Lexeme.face]
  | .binary op l r => by
    simp [written, lexemes, l.toList_written, r.toList_written, Lexeme.chars, Lexeme.face, Mark.char]
  | .negate e => by
    simp [written, lexemes, e.toList_written, Lexeme.chars, Lexeme.face, Mark.char]
  | .factorial e => by
    simp [written, lexemes, e.toList_written, Lexeme.chars, Lexeme.face, Mark.char]
  | .call f args => by
    simp [written, lexemes, Expr.toList_writtenAll args, Lexeme.chars, Lexeme.face, Mark.char]

theorem Expr.toList_writtenAll :
    ∀ es : List Expr, (Expr.writtenAll es).toList = Lexeme.text (Expr.lexemesAll es)
  | [] => rfl
  | [e] => by simp [writtenAll, lexemesAll, e.toList_written]
  | e :: e' :: es => by
    have ih := Expr.toList_writtenAll (e' :: es)
    simp [writtenAll, lexemesAll, e.toList_written, ih, Lexeme.chars, Lexeme.face, Mark.char]

end

/-! ## Neighbours -/

namespace Lexeme

/-- Whether an operand has to come behind this lexeme. -/
def expects : Lexeme → Bool
  | call _ => true
  | mark .opening | mark .separator | mark (.binary _) | mark .sign => true
  | _ => false

/-- Behind an operand stands a mark that ends or joins it; elsewhere no operator joins anything. -/
def Fits (l next : Lexeme) : Prop :=
  if l.expects then ∀ op, next ≠ mark (.binary op)
  else ∃ m, next = mark m ∧ m ≠ .opening ∧ m ≠ .sign

/-- Lexemes that fit together, the first one where an operand is expected. -/
structure Fitting (ls : List Lexeme) : Prop where
  head : ∀ op, ls.head? ≠ some (mark (.binary op))
  chain : ls.IsChain Fits

theorem fits_of_expects {l next : Lexeme} (hl : l.expects) (h : ∀ op, next ≠ mark (.binary op)) :
    Fits l next := by
  rw [Fits, if_pos hl]
  exact h

theorem fits_mark {l : Lexeme} {m : Mark} (hl : ¬ l.expects) (h : m ≠ .opening) (h' : m ≠ .sign) :
    Fits l (mark m) := by
  rw [Fits, if_neg hl]
  exact ⟨m, rfl, h, h'⟩

/-- Lexemes that fit together are told apart. -/
theorem Fitting.separated {ls : List Lexeme} (h : Fitting ls) : Separated ls := by
  refine h.chain.imp fun l next hfits hl => ?_
  have hexpects : ¬ l.expects := by cases l <;> simp_all [endsWord, expects]
  rw [Fits, if_neg hexpects] at hfits
  obtain ⟨m, hm, hopen, -⟩ := hfits
  exact ⟨m, hm, hopen⟩

end Lexeme

open Lexeme

mutual

/-- An expression fits where an operand is expected, and before a mark that ends or joins it. -/
theorem Expr.isChain_lexemes : ∀ (e : Expr) {p : Lexeme} {m : Mark} {rest : List Lexeme},
    p.expects → m ≠ .opening → m ≠ .sign → (mark m :: rest).IsChain Fits →
    (p :: (e.lexemes ++ mark m :: rest)).IsChain Fits
  | .number n, p, m, rest, hp, hopen, hsign, hrest => by
    refine .cons_cons (fits_of_expects hp (by simp)) (.cons_cons ?_ hrest)
    exact fits_mark (by simp [expects]) hopen hsign
  | .name n, p, m, rest, hp, hopen, hsign, hrest => by
    refine .cons_cons (fits_of_expects hp (by simp)) (.cons_cons ?_ hrest)
    exact fits_mark (by simp [expects]) hopen hsign
  | .binary op l r, p, m, rest, hp, hopen, hsign, hrest => by
    have hclose : (mark .closing :: mark m :: rest).IsChain Fits :=
      .cons_cons (fits_mark (by simp [expects]) hopen hsign) hrest
    have hright := r.isChain_lexemes (p := mark (.binary op)) rfl (by simp) (by simp) hclose
    have hleft := l.isChain_lexemes (p := mark .opening) rfl (by simp) (by simp) hright
    have h := List.IsChain.cons_cons (fits_of_expects hp (by simp)) hleft
    simpa [lexemes] using h
  | .negate e, p, m, rest, hp, hopen, hsign, hrest => by
    have hclose : (mark .closing :: mark m :: rest).IsChain Fits :=
      .cons_cons (fits_mark (by simp [expects]) hopen hsign) hrest
    have he := e.isChain_lexemes (p := mark .sign) rfl (by simp) (by simp) hclose
    have h := List.IsChain.cons_cons (fits_of_expects hp (by simp))
      (.cons_cons (fits_of_expects (l := mark .opening) rfl (by simp)) he)
    simpa [lexemes] using h
  | .factorial e, p, m, rest, hp, hopen, hsign, hrest => by
    have hclose : (mark .factorial :: mark .closing :: mark m :: rest).IsChain Fits :=
      .cons_cons (fits_mark (by simp [expects]) (by simp) (by simp))
        (.cons_cons (fits_mark (by simp [expects]) hopen hsign) hrest)
    have he := e.isChain_lexemes (p := mark .opening) rfl (by simp) (by simp) hclose
    have h := List.IsChain.cons_cons (fits_of_expects hp (by simp)) he
    simpa [lexemes] using h
  | .call f args, p, m, rest, hp, hopen, hsign, hrest => by
    have hclose : (mark .closing :: mark m :: rest).IsChain Fits :=
      .cons_cons (fits_mark (by simp [expects]) hopen hsign) hrest
    have hargs := Expr.isChain_lexemesAll args (p := .call f) rfl hclose
    have h := List.IsChain.cons_cons (fits_of_expects hp (by simp)) hargs
    simpa [lexemes] using h

theorem Expr.isChain_lexemesAll : ∀ (es : List Expr) {p : Lexeme} {rest : List Lexeme},
    p.expects → (mark .closing :: rest).IsChain Fits →
    (p :: (Expr.lexemesAll es ++ mark .closing :: rest)).IsChain Fits
  | [], p, rest, hp, hrest => .cons_cons (fits_of_expects hp (by simp)) hrest
  | [e], p, rest, hp, hrest => e.isChain_lexemes hp (by simp) (by simp) hrest
  | e :: e' :: es, p, rest, hp, hrest => by
    have htail := Expr.isChain_lexemesAll (e' :: es) (p := mark .separator) rfl hrest
    have h := e.isChain_lexemes hp (by simp) (by simp) htail
    simpa [lexemesAll] using h

end

theorem Expr.fitting_lexemes (e : Expr) : Fitting e.lexemes := by
  have hend : [mark .closing].IsChain Fits := .singleton _
  have h := e.isChain_lexemes (p := mark .opening) rfl (by simp) (by simp) hend
  have hchain := List.IsChain.left_of_append h.tail
  refine ⟨fun op hhead => ?_, hchain⟩
  cases e <;> simp [lexemes] at hhead

end Reckon
