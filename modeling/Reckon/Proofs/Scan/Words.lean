import Reckon.Proofs.Scan.Patterns

/-!
# Finding words

What the searches for calls, numbers and names find in a text of lexemes.  Each search goes from
lexeme to lexeme (`Seeks`); the search for names also offers the names of calls.
-/

namespace Reckon

open Text Regex

variable {r : Regex} {f : Match → Option Claim} {found : Nat → Lexeme → List Claim}
  {before : Option Char} {rest : List Char} {offset resume : Nat} {barred : Option Nat}

/-! ## Characters of lexemes -/

theorem Name.nameHead_has (n : Name) : Standard.nameHead.has n.head :=
  Standard.nameHead_of_isLower n.isLower

theorem Name.nameTail_has (n : Name) {c : Char} (hc : c ∈ n.tail) : Standard.nameTail.has c := by
  rcases n.isTail c hc with h | h | rfl
  · exact Standard.nameTail_of_nameHead (Standard.nameHead_of_isLower h)
  · exact Standard.nameTail_of_digit (by rwa [Standard.digit_has])
  · decide

theorem Name.chars_ne_nil (n : Name) : n.chars ≠ [] := List.cons_ne_nil _ _

theorem Name.isWord_of_mem (n : Name) {c : Char} (hc : c ∈ n.chars) : isWord c := by
  rcases List.mem_cons.mp hc with rfl | hc
  · exact Standard.isWord_of_nameHead n.nameHead_has
  · exact Standard.isWord_of_nameTail (n.nameTail_has hc)

theorem Name.quiet_digit (n : Name) (before : Option Char) : quiet Standard.digit before n.chars := by
  refine ⟨fun h => absurd h (Standard.not_digit_of_nameHead n.nameHead_has), ?_⟩
  refine quiet_of_isWord ?_ fun c hc => n.isWord_of_mem (List.mem_cons_of_mem _ hc)
  simpa using n.isWord_of_mem List.mem_cons_self

theorem Numeral.chars_ne_nil (n : Numeral) : n.chars ≠ [] := by
  obtain ⟨whole, fraction⟩ := n
  cases fraction <;> simp [chars, whole.nonempty]

theorem Numeral.digit_or_point (n : Numeral) {c : Char} (hc : c ∈ n.chars) :
    Standard.digit.has c ∨ c = '.' := by
  obtain ⟨whole, fraction⟩ := n
  cases fraction with
  | none => exact .inl (Standard.digit_of_mem whole hc)
  | some part =>
    rcases List.mem_append.mp hc with hc | hc
    · exact .inl (Standard.digit_of_mem whole hc)
    · rcases List.mem_cons.mp hc with rfl | hc
      · exact .inr rfl
      · exact .inl (Standard.digit_of_mem part hc)

theorem Numeral.not_nameHead_has (n : Numeral) {c : Char} (hc : c ∈ n.chars) :
    ¬ Standard.nameHead.has c := by
  rcases n.digit_or_point hc with h | rfl
  · exact fun h' => Standard.not_digit_of_nameHead h' h
  · decide

theorem Mark.not_isWord (m : Mark) : ¬ isWord m.char := by
  cases m with
  | binary op => cases op <;> decide
  | _ => decide

theorem Mark.not_nameHead_has (m : Mark) : ¬ Standard.nameHead.has m.char :=
  fun h => m.not_isWord (Standard.isWord_of_nameHead h)

theorem Mark.not_digit_has (m : Mark) : ¬ Standard.digit.has m.char :=
  fun h => m.not_isWord (Standard.isWord_of_digit h)

theorem Mark.char_ne (m : Mark) : (m ≠ .opening → m.char ≠ '(') ∧ m.char ≠ '.' := by
  cases m with
  | binary op => cases op <;> decide
  | _ => decide

/-! ## Searching lexeme by lexeme -/

namespace Lexeme

/-- The neighbours that a lexeme needs to be told apart from. -/
structure Stands (l : Lexeme) (before : Option Char) (rest : List Char) : Prop where
  left : l.isWord → ¬ before.any Text.isWord
  right : l.endsWord → ∀ c ∈ rest.head?, ¬ Text.isWord c ∧ c ≠ '(' ∧ c ≠ '.'

/-- A search that makes `found` of a lexeme and goes on behind it. -/
structure Seeks (r : Regex) (f : Match → Option Claim) (found : Nat → Lexeme → List Claim) :
    Prop where
  nil (offset : Nat) (before : Option Char) : r.ends ⟨offset, before, [], []⟩ = []
  step {l : Lexeme} {before : Option Char} {rest : List Char} {offset resume : Nat}
    (barred : Option Nat) (hl : l.Stands before rest) (hresume : resume ≤ offset) :
    ∃ resume' barred', resume' ≤ offset + width l.chars ∧
      (matchesFrom r resume barred before offset (l.chars ++ rest)).filterMap f =
        found offset l ++ (matchesFrom r resume' barred' (l.chars.getLast?.or before)
          (offset + width l.chars) rest).filterMap f

theorem Separated.tail {l : Lexeme} {ls : List Lexeme} (h : Separated (l :: ls)) : Separated ls :=
  List.IsChain.tail h

theorem Separated.stands {l : Lexeme} {ls : List Lexeme} (h : Separated (l :: ls))
    (hbefore : l.isWord → ¬ before.any Text.isWord) : l.Stands before (text ls) := by
  refine ⟨hbefore, fun hl c hc => ?_⟩
  cases ls with
  | nil => simp at hc
  | cons next ls =>
    obtain ⟨m, rfl, hm⟩ := (List.isChain_cons_cons.mp h).1 hl
    have heq : m.char = c := by simpa [chars, face] using hc
    rw [← heq]
    exact ⟨m.not_isWord, m.char_ne.1 hm, m.char_ne.2⟩

/-- Behind a lexeme no word goes on. -/
theorem Separated.next {l next : Lexeme} {ls : List Lexeme} (h : Separated (l :: next :: ls))
    (before : Option Char) (hnext : next.isWord) :
    ¬ (l.chars.getLast?.or before).any Text.isWord := by
  by_cases hl : l.endsWord
  · obtain ⟨m, rfl, -⟩ := (List.isChain_cons_cons.mp h).1 hl
    cases hnext
  · cases l with
    | number n => exact absurd rfl hl
    | name n => exact absurd rfl hl
    | call n => simp [chars]; decide
    | mark m => simpa [chars, face] using m.not_isWord

/-- What a search finds in a text of lexemes. -/
theorem Seeks.filterMap_matchesFrom (h : Seeks r f found) {ls : List Lexeme} (hls : Separated ls)
    (hbefore : ∀ l ∈ ls.head?, l.isWord → ¬ before.any Text.isWord) (hresume : resume ≤ offset) :
    (matchesFrom r resume barred before offset (text ls)).filterMap f =
      (placed offset ls).flatMap fun x => found x.1 x.2 := by
  induction ls generalizing before offset resume barred with
  | nil =>
    rw [text_nil, matchesFrom_nil (h.nil offset before)]
    rfl
  | cons l ls ih =>
    have hl : l.Stands before (text ls) := hls.stands (hbefore l rfl)
    obtain ⟨resume', barred', hle, hstep⟩ := h.step barred hl hresume
    rw [text_cons, hstep, placed, List.flatMap_cons, ih hls.tail ?_ hle]
    intro next hnext hw
    cases ls with
    | nil => cases hnext
    | cons next' ls =>
      cases hnext
      exact hls.next before hw

/-- A lexeme that is passed over. -/
theorem pass {s : CharSet} {l : Lexeme} (hr : StartsWord s r) (hquiet : quiet s before l.chars)
    (hfound : found offset l = []) (hresume : resume ≤ offset) :
    ∃ resume' barred', resume' ≤ offset + width l.chars ∧
      (matchesFrom r resume barred before offset (l.chars ++ rest)).filterMap f =
        found offset l ++ (matchesFrom r resume' barred' (l.chars.getLast?.or before)
          (offset + width l.chars) rest).filterMap f := by
  refine ⟨resume, barred, by omega, ?_⟩
  rw [matchesFrom_quiet hr hquiet, hfound]
  rfl

/-- A lexeme of which `front` is taken and the rest is passed over. -/
theorem take {s : CharSet} {l : Lexeme} {q : Place} {c : Claim} {front back : List Char}
    (hl : l.chars = front ++ back) (hne : front ≠ [])
    (hends : (r.ends ⟨offset, before, front ++ (back ++ rest), []⟩).head? = some q)
    (hq : q.offset = offset + width front)
    (hf : f ⟨⟨offset, offset + width front, front ++ (back ++ rest)⟩, q.groups⟩ = some c)
    (hr : StartsWord s r) (hback : quiet s (front.getLast?.or before) back)
    (hfound : found offset l = [c]) (hresume : resume ≤ offset) :
    ∃ resume' barred', resume' ≤ offset + width l.chars ∧
      (matchesFrom r resume barred before offset (l.chars ++ rest)).filterMap f =
        found offset l ++ (matchesFrom r resume' barred' (l.chars.getLast?.or before)
          (offset + width l.chars) rest).filterMap f := by
  refine ⟨offset + width front, some (offset + width front), by simp [hl], ?_⟩
  have hlast : l.chars.getLast?.or before = back.getLast?.or (front.getLast?.or before) := by
    rw [hl, List.getLast?_append]
    cases back.getLast? <;> rfl
  have hwidth : offset + width l.chars = offset + width front + width back := by
    rw [hl, width_append, Nat.add_assoc]
  rw [hl, List.append_assoc, matchesFrom_match hresume hne hends hq, List.filterMap_cons_some hf,
    matchesFrom_quiet hr hback, ← hl, hfound, hlast, hwidth]
  rfl

theorem quiet_mark {s : CharSet} (m : Mark) (hm : ¬ s.has m.char) (before : Option Char) :
    quiet s before (mark m).chars :=
  quiet_of_not_mem fun c hc => by rw [List.mem_singleton.mp hc]; exact hm

/-- The claim on the text of a slice. -/
theorem ofSlice_eq (kind : TokenKind) (offset : Nat) (cs rest : List Char) :
    Claim.ofSlice kind ⟨offset, offset + width cs, cs ++ rest⟩ =
      ⟨⟨kind, String.ofList cs, some offset⟩, Span.ofLength offset (width cs)⟩ := by
  simp [Claim.ofSlice, Slice.text_append, Span.between, Span.ofLength]

/-! ## Numbers -/

def numbers (offset : Nat) : Lexeme → List Claim
  | number n => [claim offset (number n)]
  | _ => []

theorem seeks_numbers :
    Seeks Standard.number (fun m => some (Claim.ofSlice .literal m.whole)) numbers where
  nil offset before := Standard.startsWord_number _ (by simp)
  step := by
    intro l before rest offset resume barred hl hresume
    have hr := Standard.startsWord_number
    cases l with
    | number n =>
      have hends : (Standard.number.ends ⟨offset, before, n.chars ++ rest, []⟩).head? =
          some (Place.behind ⟨offset, before, n.chars ++ rest, []⟩ n.chars rest) := by
        refine Standard.head?_ends_number n rfl (hl.left rfl) fun c hc => ?_
        obtain ⟨hw, -, hdot⟩ := hl.right rfl c hc
        exact ⟨hw, hdot⟩
      exact take (List.append_nil _).symm n.chars_ne_nil hends rfl
        (congrArg some (ofSlice_eq _ _ _ _)) hr trivial rfl hresume
    | name n => exact pass hr (n.quiet_digit before) rfl hresume
    | call n =>
      have hparen := quiet_mark .opening (Mark.not_digit_has _) (n.chars.getLast?.or before)
      exact pass hr (quiet_append (n.quiet_digit before) hparen) rfl hresume
    | mark m => exact pass hr (quiet_mark m m.not_digit_has before) rfl hresume

theorem literalClaims_text {ls : List Lexeme} (h : Separated ls) :
    Dialect.standard.literalClaims (text ls) = (placed 0 ls).flatMap fun x => numbers x.1 x.2 := by
  have hbefore : ∀ l ∈ ls.head?, l.isWord → ¬ (none : Option Char).any Text.isWord := by simp
  rw [← seeks_numbers.filterMap_matchesFrom h hbefore (Nat.le_refl 0), Dialect.literalClaims,
    List.filterMap_eq_map']
  rfl

/-! ## Names -/

/-- A call offers its name, without the parenthesis. -/
def names (offset : Nat) : Lexeme → List Claim
  | name n | call n => [claim offset (name n)]
  | _ => []

/-- Operators do not begin with a letter. -/
theorem isOperatorName_name (n : Name) :
    Dialect.standard.isOperatorName (String.ofList n.chars) = false := by
  have hne : ∀ symbol : String, ¬ symbol.toList.head?.any Char.isLower →
      ¬ (symbol == String.ofList n.chars) := by
    intro symbol hs heq
    rw [beq_iff_eq] at heq
    rw [heq, String.toList_ofList] at hs
    exact hs n.isLower
  have hbinary : ∀ op ∈ Dialect.standard.operators, ¬ op.name.toList.head?.any Char.isLower := by
    decide
  have hunary : ∀ op ∈ Dialect.standard.unaries, ¬ op.name.toList.head?.any Char.isLower := by
    decide
  rw [Dialect.isOperatorName, Dialect.operator?, Dialect.unary?,
    List.find?_eq_none.mpr fun op hop => hne _ (hbinary op hop),
    List.find?_eq_none.mpr fun op hop => hne _ (hunary op hop)]
  rfl

theorem seeks_names : Seeks Standard.name (fun m =>
    if Dialect.standard.isOperatorName m.whole.text then none
    else some (Claim.ofSlice .identifier m.whole)) names where
  nil offset before := Standard.startsWord_name _ (by simp)
  step := by
    intro l before rest offset resume barred hl hresume
    have hr := Standard.startsWord_name
    cases l with
    | number n => exact pass hr (quiet_of_not_mem fun c => n.not_nameHead_has) rfl hresume
    | name n =>
      have hends := Standard.ends_name (p := ⟨offset, before, n.chars ++ rest, []⟩) rfl (hl.left rfl)
        n.nameHead_has (fun c => n.nameTail_has) fun c hc => (hl.right rfl c hc).1
      refine take (List.append_nil _).symm n.chars_ne_nil (congrArg List.head? hends) rfl ?_ hr
        trivial rfl hresume
      simp only [Slice.text_append, ofSlice_eq, chars, face, isOperatorName_name]
      rfl
    | call n =>
      -- the parenthesis is passed over behind the name
      have hends := Standard.ends_name (p := ⟨offset, before, n.chars ++ '(' :: rest, []⟩) rfl
        (hl.left rfl) n.nameHead_has (fun c => n.nameTail_has) (by simp; decide)
      refine take rfl n.chars_ne_nil (congrArg List.head? hends) rfl ?_ hr
        (quiet_mark .opening (Mark.not_nameHead_has _) _) rfl hresume
      simp only [Slice.text_append, isOperatorName_name, ofSlice_eq]
      rfl
    | mark m => exact pass hr (quiet_mark m m.not_nameHead_has before) rfl hresume

theorem identifierClaims_text {ls : List Lexeme} (h : Separated ls) :
    Dialect.standard.identifierClaims (text ls) = (placed 0 ls).flatMap fun x => names x.1 x.2 := by
  have hbefore : ∀ l ∈ ls.head?, l.isWord → ¬ (none : Option Char).any Text.isWord := by simp
  exact seeks_names.filterMap_matchesFrom h hbefore (Nat.le_refl 0)

/-! ## Calls -/

def calls (offset : Nat) : Lexeme → List Claim
  | call n => [claim offset (call n)]
  | _ => []

/-- The claim that a match of the pattern of calls makes. -/
def callClaim (m : Match) : Option Claim :=
  match m.group? "name", m.group? "paren" with
  | some slice, some paren =>
    if Dialect.standard.isOperatorName slice.text then none
    else some ⟨⟨.call, slice.text, some slice.start⟩, Span.between slice.start paren.stop⟩
  | _, _ => none

theorem callClaim_eq {m : Match} {slice paren : Slice} (hname : m.group? "name" = some slice)
    (hparen : m.group? "paren" = some paren)
    (hop : Dialect.standard.isOperatorName slice.text = false) :
    callClaim m =
      some ⟨⟨.call, slice.text, some slice.start⟩, Span.between slice.start paren.stop⟩ := by
  simp [callClaim, hname, hparen, hop]

theorem seeks_calls : Seeks Standard.call callClaim calls where
  nil offset before := Standard.startsWord_call _ (by simp)
  step := by
    intro l before rest offset resume barred hl hresume
    have hr := Standard.startsWord_call
    cases l with
    | number n => exact pass hr (quiet_of_not_mem fun c => n.not_nameHead_has) rfl hresume
    | name n =>
      have hnone : Standard.call.ends ⟨offset, before, n.head :: (n.tail ++ rest), []⟩ = [] := by
        refine Standard.ends_call_of_name rfl (hl.left rfl) n.nameHead_has
          (fun c => n.nameTail_has) fun c hc => ?_
        obtain ⟨hw, hparen, -⟩ := hl.right rfl c hc
        exact ⟨hw, hparen⟩
      have hinside : quiet Standard.nameHead (some n.head) n.tail := by
        refine quiet_of_isWord ?_ fun c hc => n.isWord_of_mem (List.mem_cons_of_mem _ hc)
        simpa using n.isWord_of_mem List.mem_cons_self
      refine ⟨resume, barred, by omega, ?_⟩
      show (matchesFrom _ resume barred before offset (n.head :: (n.tail ++ rest))).filterMap _ = _
      rw [matchesFrom_cons (.inl hnone), matchesFrom_quiet hr hinside, ← getLast?_cons_or,
        Nat.add_assoc]
      rfl
    | call n =>
      have htext : (call n).chars ++ ([] ++ rest) = n.chars ++ '(' :: rest := by simp [chars]
      have hends := Standard.ends_call (p := ⟨offset, before, (call n).chars ++ ([] ++ rest), []⟩)
        htext (hl.left rfl) n.nameHead_has fun c => n.nameTail_has
      refine take (List.append_nil _).symm (by simp [chars]) (congrArg List.head? hends) ?_ ?_ hr
        trivial rfl hresume
      · simp only [chars, width_append]
        rfl
      · have hspan : Span.between offset (offset + width n.chars + 1) =
            Span.ofLength offset (width (call n).chars) := by
          have hwidth : width (call n).chars = width n.chars + 1 := by
            simp only [chars, width_append]
            rfl
          simp [Span.between, Span.ofLength, hwidth]
          omega
        have hname := Slice.text_append offset n.chars ('(' :: rest)
        refine (callClaim_eq rfl rfl ((congrArg _ hname).trans (isOperatorName_name n))).trans ?_
        exact congrArg some (Claim.mk.injEq .. ▸ ⟨by rw [hname]; rfl, hspan⟩)
    | mark m => exact pass hr (quiet_mark m m.not_nameHead_has before) rfl hresume

theorem callClaims_text {ls : List Lexeme} (h : Separated ls) :
    Dialect.standard.callClaims (text ls) = (placed 0 ls).flatMap fun x => calls x.1 x.2 := by
  have hbefore : ∀ l ∈ ls.head?, l.isWord → ¬ (none : Option Char).any Text.isWord := by simp
  rw [← seeks_calls.filterMap_matchesFrom h hbefore (Nat.le_refl 0)]
  rfl

end Lexeme

end Reckon
