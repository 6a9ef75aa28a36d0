import Reckon.Scan

/-!
# Claims

What adding claims does to a list of claims, and which kinds of tokens a text can have.
-/

namespace Reckon

namespace Claim

theorem mem_add {c x : Claim} {taken : List Claim} (h : x ∈ add taken c) : x ∈ taken ∨ x = c := by
  unfold add at h
  split at h
  · exact .inl h
  · exact (List.mem_cons.mp h).symm

theorem mem_addAll {x : Claim} {cs taken : List Claim} (h : x ∈ addAll taken cs) :
    x ∈ taken ∨ x ∈ cs := by
  induction cs generalizing taken with
  | nil => exact .inl h
  | cons c cs ih =>
    rcases ih h with h | h
    · rcases mem_add h with h | rfl
      · exact .inl h
      · exact .inr (by simp)
    · exact .inr (by simp [h])

end Claim

namespace Dialect

variable {d : Dialect} {text : List Char} {c : Claim}

/-! ## Kinds -/

theorem kind_of_mem_callClaims (h : c ∈ d.callClaims text) : c.token.kind = .call := by
  obtain ⟨m, -, hm⟩ := List.mem_filterMap.mp h
  split at hm
  · split at hm
    · cases hm
    · cases hm
      rfl
  · cases hm

theorem kind_of_mem_literalClaims (h : c ∈ d.literalClaims text) : c.token.kind = .literal := by
  obtain ⟨m, -, rfl⟩ := List.mem_map.mp h
  rfl

theorem kind_of_mem_identifierClaims (h : c ∈ d.identifierClaims text) :
    c.token.kind = .identifier := by
  obtain ⟨m, -, hm⟩ := List.mem_filterMap.mp h
  split at hm
  · cases hm
  · cases hm
    rfl

theorem kind_of_mem_parenClaims (h : c ∈ d.parenClaims text) :
    c.token.kind = .opening ∨ c.token.kind = .closing := by
  obtain ⟨⟨offset, char⟩, -, hm⟩ := List.mem_filterMap.mp h
  dsimp only at hm
  split at hm
  · cases hm
    exact .inl rfl
  · split at hm
    · cases hm
      exact .inr rfl
    · cases hm

theorem kind_of_mem_ofOccurrences {kind : TokenKind} {symbol : String}
    (h : c ∈ Claim.ofOccurrences text kind symbol) : c.token.kind = kind := by
  obtain ⟨offset, -, rfl⟩ := List.mem_map.mp h
  rfl

/-- A symbol is sought as what it names, and as a binary operator if it names both. -/
theorem mem_operatorSymbols_iff {s : String × TokenKind} : s ∈ d.operatorSymbols ↔
    (s.2 = .operator ∧ ∃ op ∈ d.operators, op.name = s.1) ∨
      (s.2 = .unary ∧ (∃ op ∈ d.unaries, op.name = s.1) ∧ d.operator? s.1 = none) := by
  obtain ⟨name, kind⟩ := s
  rw [operatorSymbols, List.mem_mergeSort, List.mem_append, List.mem_map, List.mem_map]
  constructor
  · rintro (⟨op, hop, h⟩ | ⟨op, hop, h⟩)
    · obtain ⟨rfl, rfl⟩ := Prod.mk.inj h
      exact .inl ⟨rfl, op, hop, rfl⟩
    · obtain ⟨rfl, rfl⟩ := Prod.mk.inj h
      obtain ⟨hop, hnone⟩ := List.mem_filter.mp hop
      exact .inr ⟨rfl, ⟨op, hop, rfl⟩, Option.isNone_iff_eq_none.mp hnone⟩
  · rintro (⟨hk, op, hop, hname⟩ | ⟨hk, ⟨op, hop, hname⟩, hnone⟩)
    · exact .inl ⟨op, hop, Prod.ext hname hk.symm⟩
    · rw [← hname] at hnone
      exact .inr ⟨op, List.mem_filter.mpr ⟨hop, Option.isNone_iff_eq_none.mpr hnone⟩,
        Prod.ext hname hk.symm⟩

/-- A symbol is sought if it names an operator of its kind. -/
theorem exists_of_mem_operatorSymbols {s : String × TokenKind} (h : s ∈ d.operatorSymbols) :
    (s.2 = .operator ∧ ∃ op ∈ d.operators, op.name = s.1) ∨
      (s.2 = .unary ∧ ∃ op ∈ d.unaries, op.name = s.1) :=
  (mem_operatorSymbols_iff.mp h).imp_right fun ⟨hk, hop, _⟩ => ⟨hk, hop⟩

theorem kind_of_mem_operatorSymbols {s : String × TokenKind} (h : s ∈ d.operatorSymbols) :
    s.2 = .operator ∨ s.2 = .unary :=
  (exists_of_mem_operatorSymbols h).imp And.left And.left

/-- The claims behind those of calls, in the order in which they are made. -/
def laterClaims (d : Dialect) (text : List Char) : List Claim :=
  d.literalClaims text ++ d.identifierClaims text ++ d.parenClaims text ++
    Claim.ofOccurrences text .separator d.separator ++
    d.operatorSymbols.flatMap fun s => Claim.ofOccurrences text s.2 s.1

theorem claims_eq_addAll (d : Dialect) (text : List Char) :
    d.claims text = Claim.addAll [] (d.callClaims text ++ d.laterClaims text) := by
  simp only [claims, laterClaims, Claim.addAll, List.foldl_append, List.foldl_flatMap]

/-- Every claim comes from one of the classes of tokens. -/
theorem mem_claims (h : c ∈ d.claims text) :
    c ∈ d.callClaims text ∨ c ∈ d.literalClaims text ∨ c ∈ d.identifierClaims text ∨
      c ∈ d.parenClaims text ∨ c ∈ Claim.ofOccurrences text .separator d.separator ∨
      ∃ s ∈ d.operatorSymbols, c ∈ Claim.ofOccurrences text s.2 s.1 := by
  rw [claims_eq_addAll] at h
  have h := (Claim.mem_addAll h).resolve_left List.not_mem_nil
  simpa [laterClaims, or_assoc] using h

theorem kind_of_mem_claims (h : c ∈ d.claims text) : c.token.kind ≠ .missing := by
  intro hk
  rcases mem_claims h with h | h | h | h | h | ⟨s, hs, h⟩
  · simp [kind_of_mem_callClaims h] at hk
  · simp [kind_of_mem_literalClaims h] at hk
  · simp [kind_of_mem_identifierClaims h] at hk
  · rcases kind_of_mem_parenClaims h with h | h <;> simp [h] at hk
  · simp [kind_of_mem_ofOccurrences h] at hk
  · rw [kind_of_mem_ofOccurrences h] at hk
    rcases kind_of_mem_operatorSymbols hs with h | h <;> simp [h] at hk

/-! ## Tokens -/

section ReadOperator

variable {t : Token} {op : UnaryOperator}

theorem readOperator_of_ne (hk : t.kind ≠ .operator) (previous next : Option Token) :
    d.readOperator previous t next = t := if_neg hk

theorem readOperator_of_none (hu : d.unary? t.text = none) (previous next : Option Token) :
    d.readOperator previous t next = t := by
  unfold readOperator
  rw [hu]
  split <;> rfl

theorem readOperator_of_before (hk : t.kind = .operator) (hu : d.unary? t.text = some op)
    (hside : op.side = .before) (previous next : Option Token) :
    d.readOperator previous t next =
      if d.allowsBefore previous then { t with kind := .unary } else t := by
  unfold readOperator
  rw [if_pos hk, hu]
  simp only [hside]

end ReadOperator

theorem readOperator_cases (previous : Option Token) (t : Token) (next : Option Token) :
    d.readOperator previous t next = t ∨
      t.kind = .operator ∧ d.readOperator previous t next = { t with kind := .unary } := by
  unfold readOperator
  by_cases hk : t.kind = .operator
  · rw [if_pos hk]
    cases d.unary? t.text with
    | none => exact .inl rfl
    | some op =>
      cases hs : op.side with
      | before =>
        by_cases ha : d.allowsBefore previous
        · exact .inr ⟨hk, by simp [hs, ha]⟩
        · exact .inl (by simp [hs, ha])
      | after =>
        by_cases ha : allowsAfter next
        · exact .inr ⟨hk, by simp [hs, ha]⟩
        · exact .inl (by simp [hs, ha])
  · exact .inl (if_neg hk)

/-- Only the kind of a declared operator is changed. -/
theorem readOperator_changes (previous : Option Token) (t : Token) (next : Option Token) :
    d.readOperator previous t next = t ∨ t.kind = .operator ∧ (d.unary? t.text).isSome ∧
      d.readOperator previous t next = { t with kind := .unary } := by
  rcases d.readOperator_cases previous t next with h | ⟨hk, h⟩
  · exact .inl h
  · cases hu : d.unary? t.text with
    | none => exact .inl (readOperator_of_none hu previous next)
    | some op => exact .inr ⟨hk, rfl, h⟩

/-- What reading an operator keeps holds of all tokens if it holds of all claims. -/
theorem forall_mem_tokens {P : Token → Prop} {source : String}
    (hread : ∀ previous t next, P t → P (d.readOperator previous t next))
    (hclaims : ∀ c ∈ d.claims source.toList, P c.token) : ∀ t ∈ d.tokens source, P t := by
  have hall : ∀ (ts : List Token) (previous : Option Token), (∀ t ∈ ts, P t) →
      ∀ t ∈ d.readOperators previous ts, P t := by
    intro ts
    induction ts with
    | nil => exact fun _ _ t ht => absurd ht (by simp [readOperators])
    | cons u ts ih =>
      intro previous hts
      obtain ⟨hu, hts⟩ := List.forall_mem_cons.mp hts
      exact List.forall_mem_cons.mpr ⟨hread previous u ts.head? hu, ih _ hts⟩
  refine hall _ none fun t ht => ?_
  rw [Token.sorted, List.mem_mergeSort] at ht
  obtain ⟨c, hc, rfl⟩ := List.mem_map.mp ht
  exact hclaims c hc

/-- A text holds no placeholder. -/
theorem kind_of_mem_tokens {source : String} {t : Token} (h : t ∈ d.tokens source) :
    t.kind ≠ .missing := by
  refine forall_mem_tokens (P := fun t => t.kind ≠ .missing) ?_ (fun c => kind_of_mem_claims) t h
  intro previous t next ht
  rcases d.readOperator_cases previous t next with hu | ⟨-, hu⟩
  · rw [hu]
    exact ht
  · simp [hu]

/-- An operator that is declared as what it is read as. -/
def Declares (d : Dialect) (t : Token) : Prop :=
  (t.kind = .operator → (d.operator? t.text).isSome) ∧
    (t.kind = .unary → (d.unary? t.text).isSome)

theorem Declares.readOperator {t : Token} (h : d.Declares t) (previous next : Option Token) :
    d.Declares (d.readOperator previous t next) := by
  rcases readOperator_changes previous t next with hread | ⟨-, hu, hread⟩
  · rw [hread]
    exact h
  · rw [hread]
    exact ⟨fun hk => (nomatch hk), fun _ => hu⟩

/-- The operators of a text are declared. -/
theorem declares_of_mem_tokens {source : String} {t : Token} (h : t ∈ d.tokens source) :
    d.Declares t := by
  refine forall_mem_tokens (fun previous t next ht => ht.readOperator previous next) ?_ t h
  intro c hc
  rcases mem_claims hc with hc | hc | hc | hc | hc | ⟨s, hs, hc⟩
  · simp [Declares, kind_of_mem_callClaims hc]
  · simp [Declares, kind_of_mem_literalClaims hc]
  · simp [Declares, kind_of_mem_identifierClaims hc]
  · rcases kind_of_mem_parenClaims hc with hk | hk <;> simp [Declares, hk]
  · simp [Declares, kind_of_mem_ofOccurrences hc]
  · obtain ⟨offset, -, rfl⟩ := List.mem_map.mp hc
    rcases exists_of_mem_operatorSymbols hs with ⟨hk, op, hop, hname⟩ | ⟨hk, op, hop, hname⟩
    · have hsome : (d.operator? s.1).isSome := List.find?_isSome.mpr ⟨op, hop, beq_of_eq hname⟩
      simp [Declares, Claim.ofSymbol, hk, hsome]
    · have hsome : (d.unary? s.1).isSome := List.find?_isSome.mpr ⟨op, hop, beq_of_eq hname⟩
      simp [Declares, Claim.ofSymbol, hk, hsome]

end Dialect

end Reckon
