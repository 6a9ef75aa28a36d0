import Reckon.Regex.Search

/-!
# Matches lie in the text

A place that a regular expression ends at is reached by taking characters (`Place.Reaches`), so a
match covers a stretch of the text that begins and ends between characters.
-/

namespace Reckon.Regex

open Text

variable {r t : Regex} {s : CharSet} {p q q' : Place} {text : List Char}

/-! ## Places -/

/-- The place `q` is some characters behind `p`. -/
def Place.Reaches (p q : Place) : Prop :=
  ∃ cs, p.rest = cs ++ q.rest ∧ q.offset = p.offset + width cs

namespace Place.Reaches

theorem refl (p : Place) : p.Reaches p := ⟨[], rfl, rfl⟩

theorem trans (h : p.Reaches q) (h' : q.Reaches q') : p.Reaches q' := by
  obtain ⟨cs, hrest, hoffset⟩ := h
  obtain ⟨ds, hrest', hoffset'⟩ := h'
  refine ⟨cs ++ ds, ?_, ?_⟩
  · rw [hrest, hrest', List.append_assoc]
  · rw [hoffset', hoffset, width_append, Nat.add_assoc]

theorem next {c : Char} {cs : List Char} (h : p.rest = c :: cs) : p.Reaches (p.next c cs) :=
  ⟨[c], h, rfl⟩

end Place.Reaches

theorem mem_of_mem_distinct {seen : Std.HashSet Nat} {ps : List Place}
    (h : q ∈ distinct seen ps) : q ∈ ps := by
  induction ps generalizing seen with
  | nil => exact h
  | cons p ps ih =>
    rw [distinct] at h
    split at h
    · exact List.mem_cons_of_mem _ (ih h)
    · rcases List.mem_cons.mp h with rfl | h
      · exact List.mem_cons_self
      · exact List.mem_cons_of_mem _ (ih h)

theorem reaches_of_mem_runFrom {groups : List (String × Slice)} {before : Option Char}
    {offset : Nat} {rest : List Char} (h : q ∈ runFrom s groups before offset rest) :
    Place.Reaches ⟨offset, before, rest, groups⟩ q := by
  induction rest generalizing before offset with
  | nil =>
    rw [List.mem_singleton.mp h]
    exact .refl _
  | cons c cs ih =>
    rw [runFrom] at h
    rcases List.mem_cons.mp h with rfl | h
    · exact .refl _
    · split at h
      · exact (Place.Reaches.next rfl).trans (ih h)
      · cases h

/-- Everything that the walk has found is reached from `start`. -/
def Walk.Behind (start : Place) (w : Walk) : Prop := ∀ q ∈ w.found, start.Reaches q

theorem Walk.Behind.foldl {start : Place} {f : Walk → Place → Walk}
    (hf : ∀ w p, w.Behind start → start.Reaches p → (f w p).Behind start) {w : Walk}
    {ps : List Place} (hw : w.Behind start) (hps : ∀ p ∈ ps, start.Reaches p) :
    (ps.foldl f w).Behind start := by
  induction ps generalizing w with
  | nil => exact hw
  | cons p ps ih =>
    exact ih (hf w p hw (hps p List.mem_cons_self)) fun q hq =>
      hps q (List.mem_cons_of_mem _ hq)

/-- Visiting keeps to what is reached, if every turn does. -/
theorem Walk.Behind.visit {step : Place → List Place} {greedy : Bool} {origin : Nat}
    {start : Place} (hstep : ∀ p q, q ∈ step p → p.Reaches q) (fuel : Nat) (w : Walk) (p : Place)
    (hw : w.Behind start) (hp : start.Reaches p) :
    (Walk.visit step greedy origin fuel w p).Behind start := by
  induction fuel generalizing w p with
  | zero => exact hw
  | succ fuel ih =>
    have hturn : ∀ q ∈ step p, start.Reaches q := fun q hq => hp.trans (hstep p q hq)
    have hcons : ∀ {w : Walk} {seen : Std.HashSet Nat}, w.Behind start →
        Walk.Behind start ⟨seen, p :: w.found⟩ :=
      fun hw => List.forall_mem_cons.mpr ⟨hp, hw⟩
    rw [Walk.visit]
    split
    · exact hw
    · dsimp only
      split
      · exact hcons hw
      · split
        · exact hcons (Walk.Behind.foldl ih hw hturn)
        · exact Walk.Behind.foldl ih (hcons hw) hturn

theorem reaches_of_mem_ends (r : Regex) : ∀ p q, q ∈ r.ends p → p.Reaches q := by
  induction r with
  | empty =>
    intro p q h
    rw [List.mem_singleton.mp h]
    exact .refl p
  | one s =>
    intro p q h
    rw [ends] at h
    split at h
    · cases h
    · rename_i c cs hrest
      split at h
      · rw [List.mem_singleton.mp h]
        exact .next hrest
      · cases h
  | anchor a =>
    intro p q h
    rw [ends] at h
    split at h
    · rw [List.mem_singleton.mp h]
      exact .refl p
    · cases h
  | seq r t ihr iht =>
    have hboth : ∀ p q q', q' ∈ r.ends p → q ∈ t.ends q' → p.Reaches q :=
      fun p q q' hq' hq => (ihr p q' hq').trans (iht q' q hq)
    intro p q h
    rw [ends] at h
    split at h
    · cases h
    · rename_i q' hr
      exact hboth p q q' (by rw [hr]; exact List.mem_cons_self) h
    · obtain ⟨q', hq', hq⟩ := List.mem_flatMap.mp (mem_of_mem_distinct h)
      exact hboth p q q' hq' hq
  | either r t ihr iht =>
    intro p q h
    rw [ends] at h
    split at h
    · exact iht p q h
    · exact ihr p q h
    · rcases List.mem_append.mp (mem_of_mem_distinct h) with h | h
      · exact ihr p q h
      · exact iht p q h
  | run s greedy =>
    intro p q h
    have hmem : q ∈ runFrom s p.groups p.before p.offset p.rest := by
      rw [ends] at h
      split at h
      · exact List.mem_reverse.mp h
      · exact h
    exact reaches_of_mem_runFrom hmem
  | many r greedy ih =>
    intro p q h
    rw [ends, repeated] at h
    have hstart : Walk.Behind p ⟨∅, []⟩ := fun q hq => by cases hq
    exact Walk.Behind.foldl (Walk.Behind.visit ih _) hstart (ih p) q (List.mem_reverse.mp h)
  | named name r ih =>
    intro p q h
    obtain ⟨q', hq', rfl⟩ := List.mem_map.mp h
    exact ih p q' hq'

/-! ## Slices -/

/-- The slice covers the characters `cs` of the text. -/
def Slice.Covers (text : List Char) (s : Slice) (cs : List Char) : Prop :=
  ∃ front back, text = front ++ (cs ++ back) ∧
    s = ⟨width front, width front + width cs, cs ++ back⟩

theorem Slice.Covers.text_eq {s : Slice} {cs : List Char} (h : s.Covers text cs) :
    s.text = String.ofList cs := by
  obtain ⟨front, back, -, rfl⟩ := h
  simp [Slice.text, takeWidth_append]

/-- The place stands in the text. -/
def Place.In (text : List Char) (p : Place) : Prop :=
  ∃ front, text = front ++ p.rest ∧ p.offset = width front

theorem Place.Reaches.covers (hp : p.In text) (h : p.Reaches q) :
    q.In text ∧ ∃ cs, Slice.Covers text ⟨p.offset, q.offset, p.rest⟩ cs := by
  obtain ⟨front, htext, hoffset⟩ := hp
  obtain ⟨cs, hrest, hoffset'⟩ := h
  refine ⟨⟨front ++ cs, ?_, ?_⟩, cs, front, q.rest, ?_, ?_⟩
  · rw [htext, hrest, List.append_assoc]
  · rw [hoffset', hoffset, width_append]
  · rw [htext, hrest]
  · rw [hoffset', hoffset, hrest]

/-- A match runs from a place in the text, with no groups captured, to a place it ends at. -/
theorem exists_of_mem_matchesFrom {m : Match} {resume offset : Nat} {barred : Option Nat}
    {before : Option Char} {rest : List Char}
    (hin : Place.In text ⟨offset, before, rest, []⟩)
    (h : m ∈ matchesFrom r resume barred before offset rest) :
    ∃ p q, p.In text ∧ q ∈ r.ends p ∧ m = ⟨⟨p.offset, q.offset, p.rest⟩, q.groups⟩ := by
  induction rest generalizing resume barred before offset with
  | nil =>
    rw [matchesFrom] at h
    split at h
    · rename_i q hq
      split at h
      · cases h
      · rw [List.mem_singleton.mp h]
        split at hq
        · cases hq
        · exact ⟨_, q, hin, List.mem_of_head? hq, rfl⟩
    · cases h
  | cons c cs ih =>
    have hnext : Place.In text ⟨offset + c.utf8Size, some c, cs, []⟩ := by
      obtain ⟨front, htext, hoffset⟩ := hin
      refine ⟨front ++ [c], ?_, ?_⟩
      · rw [htext, List.append_assoc]
        rfl
      · rw [width_append, ← hoffset]
        rfl
    rw [matchesFrom] at h
    split at h
    · rename_i q hq
      split at h
      · exact ih hnext h
      · rcases List.mem_cons.mp h with rfl | h
        · split at hq
          · cases hq
          · exact ⟨_, q, hin, List.mem_of_head? hq, rfl⟩
        · exact ih hnext h
    · exact ih hnext h

theorem exists_of_mem_findAll {m : Match} (h : m ∈ r.findAll text) :
    ∃ p q, p.In text ∧ q ∈ r.ends p ∧ m = ⟨⟨p.offset, q.offset, p.rest⟩, q.groups⟩ :=
  exists_of_mem_matchesFrom ⟨[], rfl, rfl⟩ h

/-- A match covers some characters of the text. -/
theorem exists_covers_of_mem_findAll {m : Match} (h : m ∈ r.findAll text) :
    ∃ cs, m.whole.Covers text cs := by
  obtain ⟨p, q, hp, hq, rfl⟩ := exists_of_mem_findAll h
  exact ((reaches_of_mem_ends r p q hq).covers hp).2

/-- A sequence ends where its second part does, begun at an end of the first. -/
theorem exists_of_mem_ends_seq (h : q ∈ (seq r t).ends p) : ∃ q' ∈ r.ends p, q ∈ t.ends q' := by
  rw [ends] at h
  split at h
  · cases h
  · rename_i q' hq'
    exact ⟨q', by rw [hq']; exact List.mem_cons_self, h⟩
  · exact List.mem_flatMap.mp (mem_of_mem_distinct h)

/-- A match of a name with a character behind it: the groups are the match of the name and the
character. -/
theorem exists_ends_of_mem_findAll_call {name : Regex} {c : Char} {m : Match}
    (h : m ∈ (seq (named "name" name) (named "paren" (one (.char c)))).findAll text) :
    ∃ p q back, p.In text ∧ q ∈ name.ends p ∧ q.rest = c :: back ∧
      m.group? "name" = some ⟨p.offset, q.offset, p.rest⟩ ∧
      m.group? "paren" = some ⟨q.offset, q.offset + c.utf8Size, c :: back⟩ := by
  obtain ⟨p, q, hin, hq, rfl⟩ := exists_of_mem_findAll h
  obtain ⟨q', hname, hparen⟩ := exists_of_mem_ends_seq hq
  obtain ⟨q₁, hq₁, rfl⟩ := List.mem_map.mp hname
  obtain ⟨q₂, hq₂, rfl⟩ := List.mem_map.mp hparen
  have hlast : ∃ back, q₁.rest = c :: back ∧ q₂.offset = q₁.offset + c.utf8Size ∧
      q₂.groups = ("name", ⟨p.offset, q₁.offset, p.rest⟩) :: q₁.groups := by
    rw [ends] at hq₂
    split at hq₂
    · cases hq₂
    · rename_i e back hback
      split at hq₂
      · rename_i he
        have he : e = c := by simpa [CharSet.has] using he
        rw [List.mem_singleton.mp hq₂]
        exact ⟨back, by rw [← he]; exact hback, by rw [← he]; rfl, rfl⟩
      · cases hq₂
  obtain ⟨back, hback, hend, hgroups⟩ := hlast
  refine ⟨p, q₁, back, hin, hq₁, hback, ?_, ?_⟩
  · simp [Match.group?, hgroups, List.lookup_cons]
  · simp [Match.group?, hback, hend]

/-- The groups of such a match cover the name and the character, one behind the other. -/
theorem exists_covers_of_mem_findAll_call {name : Regex} {c : Char} {m : Match}
    (h : m ∈ (seq (named "name" name) (named "paren" (one (.char c)))).findAll text) :
    ∃ front cs back, text = front ++ (cs ++ c :: back) ∧
      m.group? "name" =
        some ⟨width front, width front + width cs, cs ++ c :: back⟩ ∧
      m.group? "paren" =
        some ⟨width front + width cs, width front + width cs + c.utf8Size, c :: back⟩ := by
  obtain ⟨p, q, back, ⟨front, htext, hoffset⟩, hq, hback, hname, hparen⟩ :=
    exists_ends_of_mem_findAll_call h
  obtain ⟨cs, hrest, hstop⟩ := reaches_of_mem_ends name p q hq
  rw [hback] at hrest
  refine ⟨front, cs, back, by rw [htext, hrest], ?_, ?_⟩
  · rw [hname, hrest, hstop, hoffset]
  · rw [hparen, hstop, hoffset]

end Reckon.Regex
