import Reckon.Proofs.Polish.EmptyGroups

/-!
# Enclosures

A place between the tokens of a text is enclosed by groups and calls that are open there.
`enclosures` lists them with what stands next to each of them, the innermost first and the whole
text last.  `standing` tells from this what the innermost one is to the separators around it.
-/

namespace Reckon

variable {before behind ts us : List Token} {t : Token} {depth : Nat}

/-! ## The brackets around a place -/

/-- What comes behind the end of a group, if so many groups inside it are still open. -/
def behindGroup : Nat → List Token → List Token
  | _, [] => []
  | depth, t :: ts =>
    if t.kind.opensGroup then behindGroup (depth + 1) ts
    else if t.kind = .closing then
      match depth with
      | 0 => ts
      | depth + 1 => behindGroup depth ts
    else behindGroup depth ts

/-- A group, a call or the whole text, as it looks from a place in it. -/
structure Enclosure where
  /-- What opens it; nothing opens the whole text. -/
  opener : Option Token
  /-- The token directly before `opener`. -/
  before : Option Token
  /-- The token directly behind the end. -/
  behind : Option Token
  /-- Whether a separator stands before the place that is in this enclosure and no inner one. -/
  divided : Bool

/-- The whole text, before its first separator. -/
def Enclosure.whole : Enclosure := ⟨none, none, none, false⟩

/-- Says of the innermost enclosure whether it is divided. -/
def setDivided (divided : Bool) (es : List Enclosure) : List Enclosure :=
  es.modifyHead fun e => { e with divided }

/-- What encloses the place between some tokens, the latest first, and those behind it. -/
def enclosures : List Token → List Token → List Enclosure
  | [], _ => [.whole]
  | t :: before, behind =>
    let outer := enclosures before (t :: behind)
    if t.kind.opensGroup then ⟨some t, before.head?, (behindGroup 0 behind).head?, false⟩ :: outer
    else if t.kind = .closing then outer.tail
    else if t.kind = .separator then setDivided true outer
    else outer

/-! ## The standing of a group -/

/-- What an enclosure is to the separators around it. -/
inductive Standing where
  /-- It is the whole text, or an operand of an operator. -/
  | apart
  /-- It stands directly before a separator. -/
  | leading
  /-- It is the whole list of arguments of a call, or the last item of a list. -/
  | trailing
deriving DecidableEq

/-- Whether a neighbour of a group takes no operand: there is none, it is a bracket, or it is a
separator. -/
def isEdge (neighbour : Option Token) : Bool :=
  neighbour.all fun t => t.kind.opensGroup || t.kind == .closing || t.kind == .separator

/-- The standing of a group in plain parentheses between its neighbours.  Between brackets it
inherits the standing of the group that they belong to. -/
def Standing.between (before behind : Option Token) (outer : Standing) : Standing :=
  if isEdge before && isEdge behind then
    if behind.any (·.kind == .separator) then .leading
    else if before.any (·.kind == .separator) then .trailing
    else outer
  else .apart

/-- The standing of the innermost of some enclosures. -/
def standing : List Enclosure → Standing
  | [] => .apart
  | e :: outer =>
    match e.opener with
    | none => .apart
    | some opener =>
      if opener.kind = .call then .trailing else .between e.before e.behind (standing outer)

/-- A separator here finds a call or another separator above it: the innermost enclosure is divided
already, or it does not stand apart. -/
def Attached (es : List Enclosure) : Prop := es.head?.any (·.divided) ∨ standing es ≠ .apart

instance (es : List Enclosure) : Decidable (Attached es) :=
  inferInstanceAs (Decidable (_ ∨ _))

@[simp] theorem tail_setDivided (divided : Bool) (es : List Enclosure) :
    (setDivided divided es).tail = es.tail := by
  cases es <;> rfl

@[simp] theorem setDivided_setDivided (b c : Bool) (es : List Enclosure) :
    setDivided b (setDivided c es) = setDivided b es := by
  cases es <;> rfl

/-! ## One token -/

theorem enclosures_of_opens (h : t.kind.opensGroup) :
    enclosures (t :: before) behind =
      ⟨some t, before.head?, (behindGroup 0 behind).head?, false⟩ ::
        enclosures before (t :: behind) :=
  if_pos h

theorem enclosures_of_closing (h : t.kind = .closing) :
    enclosures (t :: before) behind = (enclosures before (t :: behind)).tail := by
  simp [enclosures, h, TokenKind.opensGroup]

theorem enclosures_of_separator (h : t.kind = .separator) :
    enclosures (t :: before) behind = setDivided true (enclosures before (t :: behind)) := by
  simp [enclosures, h, TokenKind.opensGroup]

theorem enclosures_of_other (ho : ¬ t.kind.opensGroup) (hc : t.kind ≠ .closing)
    (hs : t.kind ≠ .separator) :
    enclosures (t :: before) behind = enclosures before (t :: behind) := by
  simp [enclosures, ho, hc, hs]

theorem enclosures_of_operator (h : t.kind = .operator ∨ t.kind = .unary) :
    enclosures (t :: before) behind = enclosures before (t :: behind) := by
  rcases h with h | h <;> simp [enclosures, h, TokenKind.opensGroup]

theorem behindGroup_of_opens (h : t.kind.opensGroup) :
    behindGroup depth (t :: behind) = behindGroup (depth + 1) behind :=
  if_pos h

theorem behindGroup_of_other (ho : ¬ t.kind.opensGroup) (hc : t.kind ≠ .closing) :
    behindGroup depth (t :: behind) = behindGroup depth behind := by
  simp [behindGroup, ho, hc]

/-- At most the innermost enclosure is another, and only in whether it is divided. -/
theorem exists_of_getElem?_setDivided {b : Bool} {es : List Enclosure} {k : Nat} {e : Enclosure}
    (h : (setDivided b es)[k]? = some e) : ∃ e', es[k]? = some e' ∧
      (e = e' ∨ k = 0 ∧ e = { e' with divided := b }) := by
  cases es with
  | nil => exact ⟨e, h, .inl rfl⟩
  | cons e' outer =>
    cases k with
    | zero =>
      cases h
      exact ⟨e', rfl, .inr ⟨rfl, rfl⟩⟩
    | succ k => exact ⟨e, h, .inl rfl⟩

/-! ## All tokens -/

theorem openFrom_append (opened ts us : List Token) :
    openFrom opened (ts ++ us) = (openFrom opened ts).bind fun os => openFrom os us := by
  induction ts generalizing opened with
  | nil => rfl
  | cons t ts ih =>
    by_cases hopens : t.kind.opensGroup
    · simp [openFrom, hopens, ih]
    by_cases hclosing : t.kind = .closing
    · cases opened <;> simp [openFrom, hclosing, TokenKind.opensGroup, ih]
    · simp [openFrom, hopens, hclosing, ih]

/-- The enclosures are opened by the groups that are open. -/
theorem map_opener_enclosures {os : List Token} (h : openFrom [] before.reverse = some os)
    (behind : List Token) :
    (enclosures before behind).map (·.opener) = os.map some ++ [none] := by
  induction before generalizing behind os with
  | nil =>
    cases h
    rfl
  | cons t before ih =>
    rw [List.reverse_cons, openFrom_append, Option.bind_eq_some_iff] at h
    obtain ⟨os', hos', h⟩ := h
    have hmap := ih hos' (t :: behind)
    unfold openFrom at h
    by_cases hopens : t.kind.opensGroup
    · rw [if_pos hopens] at h
      cases h
      rw [enclosures_of_opens hopens, List.map_cons, hmap]
      rfl
    rw [if_neg hopens] at h
    by_cases hclosing : t.kind = .closing
    · rw [if_pos hclosing] at h
      cases os' with
      | nil => cases h
      | cons o outer =>
        cases h
        rw [enclosures_of_closing hclosing, List.map_tail, hmap]
        rfl
    rw [if_neg hclosing] at h
    cases h
    by_cases hsep : t.kind = .separator
    · rw [enclosures_of_separator hsep, ← hmap]
      cases enclosures before (t :: behind) <;> rfl
    · rw [enclosures_of_other hopens hclosing hsep, hmap]

/-- What an enclosure says of its end is so. -/
theorem behind_of_enclosures {k : Nat} {e : Enclosure} (h : (enclosures before behind)[k]? = some e)
    (ho : e.opener.isSome) : e.behind = (behindGroup k behind).head? := by
  induction before generalizing behind k e with
  | nil =>
    cases k with
    | zero =>
      cases h
      cases ho
    | succ k => simp [enclosures] at h
  | cons t before ih =>
    by_cases hopens : t.kind.opensGroup
    · rw [enclosures_of_opens hopens] at h
      cases k with
      | zero =>
        cases h
        rfl
      | succ k => rw [ih h ho, behindGroup_of_opens hopens]
    by_cases hclosing : t.kind = .closing
    · rw [enclosures_of_closing hclosing, List.getElem?_tail] at h
      rw [ih h ho, behindGroup, if_neg hopens, if_pos hclosing]
    rw [← behindGroup_of_other hopens hclosing]
    by_cases hsep : t.kind = .separator
    · rw [enclosures_of_separator hsep] at h
      obtain ⟨e', he', rfl | ⟨-, rfl⟩⟩ := exists_of_getElem?_setDivided h
      · exact ih he' ho
      · have hbehind := ih he' ho
        exact hbehind
    · rw [enclosures_of_other hopens hclosing hsep] at h
      exact ih h ho

/-- Where a group ends, the next token is the one behind it. -/
theorem behind_of_closing {c : Token} {e : Enclosure} {outer : List Enclosure}
    (hes : setDivided false (e :: outer) = setDivided false (enclosures before (c :: behind)))
    (hc : c.kind = .closing) (ho : e.opener.isSome) :
    e.behind = behind.head? ∧ outer = enclosures (c :: before) behind := by
  have htail := congrArg List.tail hes
  rw [tail_setDivided, tail_setDivided, ← enclosures_of_closing hc] at htail
  refine ⟨?_, htail⟩
  cases hen : enclosures before (c :: behind) with
  | nil =>
    rw [hen] at hes
    cases hes
  | cons e' outer' =>
    rw [hen] at hes
    obtain ⟨he, -⟩ := List.cons.inj hes
    obtain ⟨hopener, -, hbehind, -⟩ := Enclosure.mk.inj he
    have hhead : (enclosures before (c :: behind))[0]? = some e' := by rw [hen]; rfl
    rw [hbehind, behind_of_enclosures hhead (hopener ▸ ho)]
    simp [behindGroup, hc, TokenKind.opensGroup]

/-- In an enclosure that is divided there is a first separator. -/
theorem exists_first_separator {k : Nat} {e : Enclosure}
    (h : (enclosures before behind)[k]? = some e) (hd : e.divided) :
    ∃ between s rest, before = between ++ s :: rest ∧ s.kind = .separator ∧
      enclosures rest (s :: (between.reverse ++ behind)) =
        { e with divided := false } :: (enclosures before behind).drop (k + 1) := by
  induction before generalizing behind k e with
  | nil =>
    cases k with
    | zero =>
      cases h
      cases hd
    | succ k => simp [enclosures] at h
  | cons t before ih =>
    -- whatever `t` is, a separator further on is also one behind `t`
    have hback : ∀ {k' : Nat} {e' : Enclosure},
        (enclosures before (t :: behind))[k']? = some e' → e'.divided →
        ∃ between s rest, t :: before = between ++ s :: rest ∧ s.kind = .separator ∧
          enclosures rest (s :: (between.reverse ++ behind)) =
            { e' with divided := false } :: (enclosures before (t :: behind)).drop (k' + 1) := by
      intro k' e' he' hd'
      obtain ⟨between, s, rest, rfl, hs, hes⟩ := ih he' hd'
      refine ⟨t :: between, s, rest, rfl, hs, ?_⟩
      rw [List.reverse_cons, List.append_assoc]
      exact hes
    by_cases hopens : t.kind.opensGroup
    · rw [enclosures_of_opens hopens] at h ⊢
      cases k with
      | zero =>
        cases h
        cases hd
      | succ k => exact hback h hd
    by_cases hclosing : t.kind = .closing
    · rw [enclosures_of_closing hclosing, List.getElem?_tail] at h
      rw [enclosures_of_closing hclosing, List.drop_tail]
      exact hback h hd
    by_cases hsep : t.kind = .separator
    · rw [enclosures_of_separator hsep] at h ⊢
      have hdrop : ∀ es : List Enclosure, (setDivided true es).drop (k + 1) = es.drop (k + 1) := by
        intro es
        cases es <;> rfl
      rw [hdrop]
      obtain ⟨e', he', rfl | ⟨rfl, rfl⟩⟩ := exists_of_getElem?_setDivided h
      · exact hback he' hd
      obtain ⟨opener, before', behind', divided⟩ := e'
      cases divided with
      | true =>
        have hfirst := hback he' rfl
        exact hfirst
      | false =>
        -- `t` itself is the first one
        refine ⟨[], t, before, rfl, hsep, ?_⟩
        cases hes : enclosures before (t :: behind) with
        | nil =>
          rw [hes] at he'
          cases he'
        | cons e outer =>
          rw [hes] at he'
          cases he'
          exact hes
    · rw [enclosures_of_other hopens hclosing hsep] at h ⊢
      exact hback h hd

end Reckon
