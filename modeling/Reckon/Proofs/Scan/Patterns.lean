import Reckon.Proofs.Regex.Matches
import Reckon.Proofs.Scan.Lexeme

/-!
# What the standard patterns match

Each of the patterns of `Dialect.standard` begins at the beginning of a word and takes all of it.
-/

namespace Reckon.Standard

open Text Regex

variable {p : Place} {c : Char} {cs rest : List Char}

attribute [local simp] CharSet.has

/-! ## Characters -/

theorem isUpper_iff : c.isUpper ↔ 'A' ≤ c ∧ c ≤ 'Z' := decide_eq_true_iff

theorem isLower_iff : c.isLower ↔ 'a' ≤ c ∧ c ≤ 'z' := by
  show (decide ('a' ≤ c) && decide (c ≤ 'z')) = true ↔ _
  simp

theorem digit_has (c : Char) : digit.has c = c.isDigit := by
  simp [digit, Char.isDigit, Char.le_def]

theorem nameHead_has_iff : nameHead.has c ↔ c.isAlpha ∨ c = '_' := by
  show _ ↔ (c.isUpper || c.isLower) = true ∨ c = '_'
  rw [Bool.or_eq_true, isUpper_iff, isLower_iff]
  simp [nameHead]

theorem nameTail_has_iff : nameTail.has c ↔ c.isAlphanum ∨ c = '_' := by
  show _ ↔ (c.isUpper || c.isLower || c.isDigit) = true ∨ c = '_'
  rw [Bool.or_eq_true, Bool.or_eq_true, isUpper_iff, isLower_iff, ← digit_has]
  simp [nameTail, digit]

theorem nameHead_of_isLower (h : c.isLower) : nameHead.has c :=
  nameHead_has_iff.mpr (.inl (Bool.or_eq_true_iff.mpr (.inr h)))

theorem nameTail_of_nameHead (h : nameHead.has c) : nameTail.has c := by
  rcases nameHead_has_iff.mp h with h | h
  · exact nameTail_has_iff.mpr (.inl (Bool.or_eq_true_iff.mpr (.inl h)))
  · exact nameTail_has_iff.mpr (.inr h)

theorem nameTail_of_digit (h : digit.has c) : nameTail.has c := by
  rw [digit_has] at h
  exact nameTail_has_iff.mpr (.inl (Bool.or_eq_true_iff.mpr (.inr h)))

theorem not_digit_of_nameHead (h : nameHead.has c) : ¬ digit.has c := by
  simp only [nameHead, digit, CharSet.has, Bool.false_or, Bool.or_eq_true, Bool.and_eq_true,
    decide_eq_true_eq, Char.le_def, UInt32.le_iff_toNat_le, beq_iff_eq] at h ⊢
  have hA : 'A'.val.toNat = 65 := rfl
  have ha : 'a'.val.toNat = 97 := rfl
  have h9 : '9'.val.toNat = 57 := rfl
  rcases h with (h | h) | rfl
  · omega
  · omega
  · decide

theorem toNat_lt_of_nameTail (h : nameTail.has c) : c.toNat < 128 := by
  simp only [nameTail, CharSet.has, Bool.false_or, Bool.or_eq_true, Bool.and_eq_true,
    decide_eq_true_eq, Char.le_def, UInt32.le_iff_toNat_le, beq_iff_eq] at h
  rcases h with ((h | h) | h) | rfl
  · exact Nat.lt_of_le_of_lt h.2 (by decide)
  · exact Nat.lt_of_le_of_lt h.2 (by decide)
  · exact Nat.lt_of_le_of_lt h.2 (by decide)
  · decide

theorem isWord_of_nameTail (h : nameTail.has c) : isWord c := by
  rw [isWord_of_ascii (toNat_lt_of_nameTail h), Bool.or_eq_true, beq_iff_eq]
  exact nameTail_has_iff.mp h

theorem isWord_of_nameHead (h : nameHead.has c) : isWord c :=
  isWord_of_nameTail (nameTail_of_nameHead h)

theorem isWord_of_digit (h : digit.has c) : isWord c := isWord_of_nameTail (nameTail_of_digit h)

/-! ## Where matches begin -/

theorem startsWord_name : StartsWord nameHead name :=
  (Opens.seq (opens_one _) _).startsWord fun _ => isWord_of_nameHead

theorem startsWord_call : StartsWord nameHead call := (startsWord_name.named _).seq _

theorem startsWord_number : StartsWord digit number :=
  (Opens.seq (Opens.seq (opens_one _) _) _).startsWord fun _ => isWord_of_digit

/-! ## Names and calls -/

theorem ends_one (hp : p.rest = c :: rest) {s : CharSet} (hc : s.has c) :
    (one s).ends p = [p.next c rest] := by
  simp [ends, hp, hc]

/-- A name is matched as a whole and in no other way. -/
theorem ends_name (hp : p.rest = c :: cs ++ rest) (hb : ¬ p.wordBefore) (hc : nameHead.has c)
    (hcs : ∀ d ∈ cs, nameTail.has d) (hrest : ∀ d ∈ rest.head?, ¬ isWord d) :
    name.ends p = [p.behind (c :: cs) rest] := by
  have hword : isWord c := isWord_of_nameHead hc
  have hstart : (anchor .wordBoundary).ends p = [p] :=
    ends_wordBoundary_start hb (by rw [hp]; rfl) hword
  have hfirst : (one nameHead).ends p = [p.next c (cs ++ rest)] := ends_one hp hc
  have hrun : (seq (run nameTail true) (anchor .wordBoundary)).ends (p.next c (cs ++ rest)) =
      [(p.next c (cs ++ rest)).behind cs rest] := by
    refine ends_run_wordBoundary rfl ?_ (fun d hd => ⟨hcs d hd, isWord_of_nameTail (hcs d hd)⟩)
      fun d hd => ⟨fun h => hrest d hd (isWord_of_nameTail h), hrest d hd⟩
    simpa [Place.wordBefore, Place.next] using hword
  rw [name, ends_seq_of_singleton hstart, ends_seq_of_singleton hfirst, hrun, Place.next_behind]

/-- A name is not a call unless a parenthesis comes next. -/
theorem ends_call_of_name (hp : p.rest = c :: cs ++ rest) (hb : ¬ p.wordBefore)
    (hc : nameHead.has c) (hcs : ∀ d ∈ cs, nameTail.has d)
    (hrest : ∀ d ∈ rest.head?, ¬ isWord d ∧ d ≠ '(') : call.ends p = [] := by
  have hname := ends_name hp hb hc hcs fun d hd => (hrest d hd).1
  rw [call, ends_seq_of_singleton (by rw [ends, hname]; rfl)]
  have hparen : ∀ d ∈ rest.head?, ¬ (CharSet.char '(').has d := by
    intro d hd
    simpa using (hrest d hd).2
  rw [ends, opens_one _ _ hparen]
  rfl

/-- A call is matched with its parenthesis, and both are captured. -/
theorem ends_call (hp : p.rest = c :: cs ++ '(' :: rest) (hb : ¬ p.wordBefore)
    (hc : nameHead.has c) (hcs : ∀ d ∈ cs, nameTail.has d) :
    call.ends p = [⟨p.offset + width (c :: cs) + 1, some '(', rest,
      ("paren", ⟨p.offset + width (c :: cs), p.offset + width (c :: cs) + 1, '(' :: rest⟩) ::
        ("name", ⟨p.offset, p.offset + width (c :: cs), c :: cs ++ '(' :: rest⟩) :: p.groups⟩] := by
  have hname := ends_name hp hb hc hcs (by simp; decide)
  rw [call, ends_seq_of_singleton (by rw [ends, hname]; rfl), ← hp]
  rfl

/-! ## Numbers -/

variable (ds : Digits)
include ds

theorem digit_of_mem {d : Char} (hd : d ∈ ds.chars) : digit.has d := by
  rw [digit_has]
  exact ds.isDigit d hd

theorem head?_ends_digits (hp : p.rest = ds.chars ++ rest) (hrest : ∀ d ∈ rest.head?, ¬ digit.has d) :
    (digits.ends p).head? = some (p.behind ds.chars rest) := by
  obtain ⟨c, cs, hc⟩ := List.exists_cons_of_ne_nil ds.nonempty
  have hdigit : ∀ d ∈ c :: cs, digit.has d := fun d hd => digit_of_mem ds (by rwa [hc])
  rw [hc] at hp ⊢
  have hfirst : (one digit).ends p = [p.next c (cs ++ rest)] := ends_one hp (hdigit c (by simp))
  have hrun := head?_ends_run (p := p.next c (cs ++ rest)) rfl
    (fun d hd => hdigit d (by simp [hd])) hrest
  rw [digits, ends_seq_of_singleton hfirst, hrun, Place.next_behind]

/-- Digits end a word. -/
theorem ends_wordBoundary_digits (p : Place) (hrest : ∀ d ∈ rest.head?, ¬ isWord d) :
    (anchor .wordBoundary).ends (p.behind ds.chars rest) = [p.behind ds.chars rest] := by
  have hlast := List.getLast?_eq_some_getLast ds.nonempty
  have hword := isWord_of_digit (digit_of_mem ds (List.getLast_mem ds.nonempty))
  exact ends_wordBoundary (wordBefore_behind_of_getLast? hlast hword) hrest

omit ds in
/-- The preferred match of a number takes its fraction too. -/
theorem head?_ends_number (n : Numeral) (hp : p.rest = n.chars ++ rest) (hb : ¬ p.wordBefore)
    (hrest : ∀ d ∈ rest.head?, ¬ isWord d ∧ d ≠ '.') :
    (number.ends p).head? = some (p.behind n.chars rest) := by
  have hword : ∀ d ∈ rest.head?, ¬ isWord d := fun d hd => (hrest d hd).1
  have hdigit : ∀ d ∈ rest.head?, ¬ digit.has d := fun d hd h => hword d hd (isWord_of_digit h)
  obtain ⟨whole, fraction⟩ := n
  obtain ⟨c, cs, hc⟩ := List.exists_cons_of_ne_nil whole.nonempty
  have hstart : (anchor .wordBoundary).ends p = [p] := by
    refine ends_wordBoundary_start (c := c) hb ?_ (isWord_of_digit (digit_of_mem whole (by simp [hc])))
    rw [hp]
    cases fraction <;> simp [Numeral.chars, hc]
  rw [number, ends_seq_of_singleton hstart]
  cases fraction with
  | none =>
    -- the fraction is left out
    have hdot : ∀ d ∈ rest.head?, ¬ (CharSet.char '.').has d := by
      intro d hd
      simpa using (hrest d hd).2
    have hleft : (either (seq (seq (one (.char '.')) digits) empty) empty).ends
        (p.behind whole.chars rest) = [p.behind whole.chars rest] :=
      ends_either_of_nil (((opens_one _).seq _).seq _ _ hdot)
    refine head?_ends_seq (head?_ends_digits whole hp hdigit) ?_
    rw [ends_seq_of_singleton hleft, ends_wordBoundary_digits whole p hword]
    rfl
  | some part =>
    have hp' : p.rest = whole.chars ++ '.' :: (part.chars ++ rest) := by simp [hp, Numeral.chars]
    have hdot : ∀ d ∈ ('.' :: (part.chars ++ rest)).head?, ¬ digit.has d := by
      intro d hd
      cases hd
      decide
    let q : Place := p.behind whole.chars ('.' :: (part.chars ++ rest))
    let q' : Place := q.next '.' (part.chars ++ rest)
    have hpoint : (one (.char '.')).ends q = [q'] := ends_one rfl (by decide)
    have hpart : (digits.ends q').head? = some (q'.behind part.chars rest) :=
      head?_ends_digits part rfl hdigit
    have htaken : ((seq (seq (one (.char '.')) digits) empty).ends q).head? =
        some (q'.behind part.chars rest) :=
      head?_ends_seq (by rw [ends_seq_of_singleton hpoint, hpart]) rfl
    have hend : q'.behind part.chars rest = p.behind (whole.chars ++ '.' :: part.chars) rest := by
      rw [Place.next_behind]
      exact p.behind_behind _ _ _
    refine head?_ends_seq (head?_ends_digits whole hp' hdot) (head?_ends_seq (head?_ends_either htaken) ?_)
    rw [ends_wordBoundary_digits part q' hword, hend]
    rfl

end Reckon.Standard
