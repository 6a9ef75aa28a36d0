import Reckon.Proofs.Regex.Ends

/-!
# Searching past words

How a search for words moves on: it passes over what begins no word (`quiet`), takes a word where
the preferred match is one, and goes on behind it.
-/

namespace Reckon.Regex

open Text

variable {r : Regex} {s : CharSet} {q : Place} {resume offset : Nat} {barred : Option Nat}
  {before : Option Char} {c : Char} {cs rest : List Char}

/-! ## One place -/

theorem matchesFrom_nil (h : r.ends ⟨offset, before, [], []⟩ = []) :
    matchesFrom r resume barred before offset [] = [] := by
  rw [matchesFrom]
  simp [h]

theorem matchesFrom_cons (h : r.ends ⟨offset, before, c :: rest, []⟩ = [] ∨ offset < resume) :
    matchesFrom r resume barred before offset (c :: rest) =
      matchesFrom r resume barred (some c) (offset + c.utf8Size) rest := by
  rw [matchesFrom]
  rcases h with h | h
  · simp [h]
  · simp [h]

theorem matchesFrom_hit (hresume : resume ≤ offset)
    (h : (r.ends ⟨offset, before, c :: rest, []⟩).head? = some q) (hq : q.offset ≠ offset) :
    matchesFrom r resume barred before offset (c :: rest) =
      ⟨⟨offset, q.offset, c :: rest⟩, q.groups⟩ ::
        matchesFrom r q.offset (some q.offset) (some c) (offset + c.utf8Size) rest := by
  rw [matchesFrom]
  have hnot : ¬ offset < resume := by omega
  simp [h, hq, hnot]

/-! ## A stretch of the text -/

/-- No character of `s` in `cs` begins a word. -/
def quiet (s : CharSet) : Option Char → List Char → Prop
  | _, [] => True
  | before, c :: cs => (s.has c → before.any isWord) ∧ quiet s (some c) cs

theorem quiet_of_not_mem (h : ∀ c ∈ cs, ¬ s.has c) : quiet s before cs := by
  induction cs generalizing before with
  | nil => trivial
  | cons c cs ih =>
    exact ⟨fun hc => absurd hc (h c (by simp)), ih fun d hd => h d (by simp [hd])⟩

/-- Inside a word no other one begins. -/
theorem quiet_of_isWord (hb : before.any isWord) (h : ∀ c ∈ cs, isWord c) : quiet s before cs := by
  induction cs generalizing before with
  | nil => trivial
  | cons c cs ih =>
    have hc : isWord c := h c (by simp)
    exact ⟨fun _ => hb, ih (by simpa using hc) fun d hd => h d (by simp [hd])⟩

theorem quiet_append {ds : List Char} (h : quiet s before cs)
    (h' : quiet s (cs.getLast?.or before) ds) : quiet s before (cs ++ ds) := by
  induction cs generalizing before with
  | nil => exact h'
  | cons c cs ih =>
    refine ⟨h.1, ih h.2 ?_⟩
    rw [List.getLast?_cons] at h'
    cases hl : cs.getLast? <;> simpa [hl] using h'

theorem getLast?_cons_or (c : Char) (cs : List Char) (before : Option Char) :
    (c :: cs).getLast?.or before = cs.getLast?.or (some c) := by
  rw [List.getLast?_cons]
  cases cs.getLast? <;> rfl

theorem matchesFrom_quiet (hr : StartsWord s r) (h : quiet s before cs) (rest : List Char) :
    matchesFrom r resume barred before offset (cs ++ rest) =
      matchesFrom r resume barred (cs.getLast?.or before) (offset + width cs) rest := by
  induction cs generalizing before offset with
  | nil => simp
  | cons c cs ih =>
    have hnone : r.ends ⟨offset, before, c :: (cs ++ rest), []⟩ = [] := by
      apply hr
      intro d hd hs
      cases hd
      exact h.1 hs
    rw [List.cons_append, matchesFrom_cons (.inl hnone), ih h.2, getLast?_cons_or, width_cons,
      Nat.add_assoc]

/-- The characters of a match are passed over. -/
theorem matchesFrom_taken (h : offset + width cs ≤ resume) (rest : List Char) :
    matchesFrom r resume barred before offset (cs ++ rest) =
      matchesFrom r resume barred (cs.getLast?.or before) (offset + width cs) rest := by
  induction cs generalizing before offset with
  | nil => simp
  | cons c cs ih =>
    have hpos := c.utf8Size_pos
    rw [width_cons] at h
    rw [List.cons_append, matchesFrom_cons (.inr (by omega)), ih (by omega), getLast?_cons_or,
      width_cons, Nat.add_assoc]

/-- A match is taken and the search goes on behind it. -/
theorem matchesFrom_match (hresume : resume ≤ offset) (hcs : cs ≠ [])
    (h : (r.ends ⟨offset, before, cs ++ rest, []⟩).head? = some q)
    (hq : q.offset = offset + width cs) :
    matchesFrom r resume barred before offset (cs ++ rest) =
      ⟨⟨offset, offset + width cs, cs ++ rest⟩, q.groups⟩ ::
        matchesFrom r (offset + width cs) (some (offset + width cs)) (cs.getLast?.or before)
          (offset + width cs) rest := by
  obtain ⟨c, ds, rfl⟩ := List.exists_cons_of_ne_nil hcs
  have hpos := c.utf8Size_pos
  have hne : q.offset ≠ offset := by rw [hq, width_cons]; omega
  have hle : offset + c.utf8Size + width ds ≤ q.offset := by rw [hq, width_cons]; omega
  rw [List.cons_append] at h ⊢
  rw [matchesFrom_hit hresume h hne, matchesFrom_taken hle, hq, getLast?_cons_or, width_cons,
    Nat.add_assoc]

/-- The text of a slice that begins with `cs` and is as wide. -/
theorem Slice.text_append (start : Nat) (cs rest : List Char) :
    Slice.text ⟨start, start + width cs, cs ++ rest⟩ = String.ofList cs := by
  simp [Slice.text, takeWidth_append]

end Reckon.Regex
