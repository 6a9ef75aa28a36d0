import Mathlib.Data.List.Nodup
import Reckon.Proofs.Scan.Claims
import Reckon.Proofs.Span

/-!
# Claims that tile a text

When the claims that ought to win are disjoint, and every other one overlaps one of those made
before it, then exactly the former are left, whatever the order in which they are made.
-/

namespace Reckon

namespace Claim

variable {tiles taken cs : List Claim} {a b c x : Claim}

/-- Claims on some bytes each, in the order of the text. -/
structure Tiled (tiles : List Claim) : Prop where
  pos : ∀ c ∈ tiles, c.span.start < c.span.stop
  ordered : tiles.Pairwise fun a b => a.span.stop ≤ b.span.start

theorem overlaps_iff : a.span.overlaps b.span ↔
    a.span.start < b.span.stop ∧ b.span.start < a.span.stop := Span.overlaps_iff

theorem Tiled.tail (h : Tiled (c :: tiles)) : Tiled tiles :=
  ⟨fun x hx => h.pos x (List.mem_cons_of_mem _ hx), h.ordered.tail⟩

/-- Different tiles do not overlap. -/
theorem Tiled.eq_of_overlaps (h : Tiled tiles) (ha : a ∈ tiles) (hb : b ∈ tiles)
    (hab : a.span.overlaps b.span) : a = b := by
  rw [overlaps_iff] at hab
  induction tiles with
  | nil => cases ha
  | cons c tiles ih =>
    have hle : ∀ x ∈ tiles, c.span.stop ≤ x.span.start :=
      fun x hx => List.rel_of_pairwise_cons h.ordered hx
    rcases List.mem_cons.mp ha with rfl | ha' <;> rcases List.mem_cons.mp hb with rfl | hb'
    · rfl
    · have := hle b hb'
      omega
    · have := hle a ha'
      omega
    · exact ih h.tail ha' hb'

theorem Tiled.nodup (h : Tiled tiles) : tiles.Nodup := by
  induction tiles with
  | nil => exact List.nodup_nil
  | cons c tiles ih =>
    refine List.nodup_cons.mpr ⟨fun hc => ?_, ih h.tail⟩
    have hle := List.rel_of_pairwise_cons h.ordered hc
    have hlt := h.pos c List.mem_cons_self
    omega

/-! ## Adding -/

theorem add_of_overlaps (hx : x ∈ taken) (h : x.span.overlaps c.span) : add taken c = taken := by
  have hany : taken.any (·.span.overlaps c.span) := List.any_eq_true.mpr ⟨x, hx, h⟩
  simp [add, hany]

theorem mem_add_of_mem (hx : x ∈ taken) : x ∈ add taken c := by
  unfold add
  split
  · exact hx
  · exact List.mem_cons_of_mem _ hx

/-- A tile is taken; what overlaps a tile that is taken is not. -/
theorem Tiled.mem_add_iff (h : Tiled tiles) (htaken : ∀ x ∈ taken, x ∈ tiles)
    (hc : c ∈ tiles ∨ ∃ x ∈ taken, x.span.overlaps c.span) :
    x ∈ add taken c ↔ x ∈ taken ∨ x = c ∧ x ∈ tiles := by
  by_cases hover : ∃ y ∈ taken, y.span.overlaps c.span
  · obtain ⟨y, hy, hov⟩ := hover
    rw [add_of_overlaps hy hov]
    refine ⟨.inl, ?_⟩
    rintro (hx | ⟨rfl, hx⟩)
    · exact hx
    · rwa [← h.eq_of_overlaps (htaken y hy) hx hov]
  · have htile : c ∈ tiles := hc.resolve_right hover
    have hempty : c.span.isEmpty = false := by
      have := h.pos c htile
      simp [Span.isEmpty]
      omega
    have hnone : taken.any (·.span.overlaps c.span) = false :=
      List.any_eq_false.mpr fun y hy hov => hover ⟨y, hy, hov⟩
    simp only [add, hempty, hnone, Bool.or_self, Bool.false_eq_true, if_false, List.mem_cons]
    constructor
    · rintro (rfl | hx)
      · exact .inr ⟨rfl, htile⟩
      · exact .inl hx
    · rintro (hx | ⟨rfl, -⟩)
      · exact .inr hx
      · exact .inl rfl

/-- What is left when every claim is a tile or overlaps a tile that is taken. -/
theorem Tiled.mem_addAll_iff (h : Tiled tiles) (htaken : ∀ x ∈ taken, x ∈ tiles)
    (hcs : ∀ c ∈ cs, c ∈ tiles ∨ ∃ x ∈ taken, x.span.overlaps c.span) :
    x ∈ addAll taken cs ↔ x ∈ taken ∨ x ∈ cs ∧ x ∈ tiles := by
  induction cs generalizing taken with
  | nil => simp [addAll]
  | cons c cs ih =>
    have hadd : ∀ y, y ∈ add taken c ↔ y ∈ taken ∨ y = c ∧ y ∈ tiles :=
      fun y => h.mem_add_iff htaken (hcs c List.mem_cons_self)
    have htaken' : ∀ y ∈ add taken c, y ∈ tiles := by
      intro y hy
      rcases (hadd y).mp hy with hy | ⟨-, hy⟩
      · exact htaken y hy
      · exact hy
    have hcs' : ∀ c' ∈ cs, c' ∈ tiles ∨ ∃ y ∈ add taken c, y.span.overlaps c'.span := by
      intro c' hc'
      rcases hcs c' (List.mem_cons_of_mem _ hc') with ht | ⟨y, hy, hov⟩
      · exact .inl ht
      · exact .inr ⟨y, mem_add_of_mem hy, hov⟩
    show x ∈ addAll (add taken c) cs ↔ _
    rw [ih htaken' hcs', hadd, List.mem_cons, or_and_right, or_assoc]

theorem nodup_add (htaken : taken.Nodup) (c : Claim) : (add taken c).Nodup := by
  unfold add
  split
  · exact htaken
  · rename_i hnot
    refine List.nodup_cons.mpr ⟨fun hc => hnot ?_, htaken⟩
    rw [Bool.or_eq_true, List.any_eq_true]
    by_cases hempty : c.span.isEmpty
    · exact .inl hempty
    · have hord := c.span.ordered
      have hne : c.span.start ≠ c.span.stop := by simpa [Span.isEmpty] using hempty
      exact .inr ⟨c, hc, overlaps_iff.mpr ⟨by omega, by omega⟩⟩

theorem nodup_addAll (htaken : taken.Nodup) (cs : List Claim) : (addAll taken cs).Nodup := by
  induction cs generalizing taken with
  | nil => exact htaken
  | cons c cs ih => exact ih (nodup_add htaken c)

/-- The tiles, when all of them are claimed. -/
theorem Tiled.perm_addAll {first : List Claim} (h : Tiled tiles) (hfirst : ∀ c ∈ first, c ∈ tiles)
    (hcs : ∀ c ∈ cs, c ∈ tiles ∨ ∃ x ∈ first, x.span.overlaps c.span)
    (hall : ∀ c ∈ tiles, c ∈ first ∨ c ∈ cs) : (addAll [] (first ++ cs)).Perm tiles := by
  have hmem : ∀ c, c ∈ addAll [] first ↔ c ∈ first := by
    intro c
    rw [h.mem_addAll_iff (by simp) fun c hc => .inl (hfirst c hc)]
    simpa using hfirst c
  have hrest : ∀ c ∈ cs, c ∈ tiles ∨ ∃ x ∈ addAll [] first, x.span.overlaps c.span := by
    intro c hc
    rcases hcs c hc with ht | ⟨x, hx, hov⟩
    · exact .inl ht
    · exact .inr ⟨x, (hmem x).mpr hx, hov⟩
  have hsplit : addAll [] (first ++ cs) = addAll (addAll [] first) cs := List.foldl_append
  refine (List.perm_ext_iff_of_nodup (nodup_addAll List.nodup_nil _) h.nodup).mpr fun c => ?_
  rw [hsplit, h.mem_addAll_iff (fun x hx => hfirst x ((hmem x).mp hx)) hrest, hmem]
  constructor
  · rintro (hc | ⟨-, hc⟩)
    · exact hfirst c hc
    · exact hc
  · intro hc
    rcases hall c hc with hc' | hc'
    · exact .inl hc'
    · exact .inr ⟨hc', hc⟩

end Claim

end Reckon
