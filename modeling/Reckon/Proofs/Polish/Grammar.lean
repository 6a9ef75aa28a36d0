import Reckon.Proofs.Polish.Climbing

/-!
# Climbing succeeds on the grammar

The grammar is read from the left: an expression is a unary operator before an expression, or a
primary with a `Tail`.  Climbing leaves a tail to whoever called it and takes all of it when nothing
is pending, so on a whole expression it ends where the expression ends.
-/

namespace Reckon

namespace Dialect

variable {d : Dialect} {ts : List Token}

/-- What may follow a primary inside an expression. -/
inductive Tail (d : Dialect) : List Token → Prop
  | nil : Tail d []
  | after {t : Token} {ts : List Token} (ht : d.isAfter t) (h : Tail d ts) : Tail d (t :: ts)
  | between {t : Token} {ts : List Token} (ht : d.isBetween t) (h : d.Infix ts) : Tail d (t :: ts)

theorem Tail.append {post us : List Token} (h : Tail d us) (hpost : ∀ t ∈ post, d.isAfter t) :
    Tail d (post ++ us) := by
  induction post with
  | nil => exact h
  | cons t post ih => exact .after (hpost t (by simp)) (ih fun u hu => hpost u (by simp [hu]))

/-- The ways in which an expression begins. -/
inductive Begins (d : Dialect) : List Token → Prop
  | before {t : Token} {ts : List Token} (ht : d.isBefore t) (h : d.Infix ts) : Begins d (t :: ts)
  | primary {us tail : List Token} (h : d.Primary us) (htail : Tail d tail) : Begins d (us ++ tail)

theorem Begins.length_pos (h : Begins d ts) : 0 < ts.length := by
  cases h with
  | before ht _ => simp
  | primary hprimary _ => cases hprimary <;> simp

theorem begins_of_item {us tail : List Token} (h : d.Item us) (htail : Tail d tail)
    (hwhole : ∀ vs, d.Item vs → d.Infix (vs ++ tail)) : Begins d (us ++ tail) := by
  obtain ⟨hpre, hprimary, hpost⟩ := h
  rename_i pre vs post
  cases pre with
  | nil =>
    rw [List.nil_append, List.append_assoc]
    exact .primary hprimary (htail.append hpost)
  | cons t pre =>
    have hrest := hwhole _ (.mk (fun u (hu : u ∈ pre) => hpre u (by simp [hu])) hprimary hpost)
    exact .before (hpre t (by simp)) hrest

theorem Infix.begins (h : d.Infix ts) : Begins d ts := by
  cases h with
  | last h =>
    rw [← List.append_nil ts]
    exact begins_of_item h .nil fun vs hvs => by simpa using .last hvs
  | more h ht rest => exact begins_of_item h (.between ht rest) fun vs hvs => .more hvs ht rest

end Dialect

namespace Climbing

open Dialect

variable {d : Dialect} {ts rest tail : List Token} {pending : Option Token} {left : Tree}
  {fuel : Nat}

/-- What comes next ends an expression. -/
def Ends (rest : List Token) : Prop := ∀ c ∈ rest.head?, c.kind = .closing

/-- With the fuel that its tokens ask for, climbing reads any expression, and leaves a tail of it
when an operator is pending. -/
structure Succeeds (d : Dialect) (fuel : Nat) : Prop where
  climb (pending : Option Token) {ts rest : List Token} (h : d.Infix ts) (hends : Ends rest)
    (hfuel : 2 * ts.length + 1 ≤ fuel) :
    ∃ tree tail, climb d fuel pending (ts ++ rest) = some (tree, tail ++ rest) ∧ Tail d tail ∧
      tail.length < ts.length ∧ (pending = none → tail = [])
  operand {ts rest : List Token} (h : d.Infix ts) (hends : Ends rest)
    (hfuel : 2 * ts.length ≤ fuel) :
    ∃ tree tail, operand d fuel (ts ++ rest) = some (tree, tail ++ rest) ∧ Tail d tail ∧
      tail.length < ts.length
  absorb (pending : Option Token) (left : Tree) {ts rest : List Token} (h : Tail d ts)
    (hends : Ends rest) (hfuel : 2 * ts.length + 1 ≤ fuel) :
    ∃ tree tail, absorb d fuel pending left (ts ++ rest) = some (tree, tail ++ rest) ∧
      Tail d tail ∧ tail.length ≤ ts.length ∧ (pending = none → tail = [])

/-- Nothing is absorbed beyond the end. -/
theorem absorb_ends (hends : Ends rest) :
    absorb d (fuel + 1) pending left rest = some (left, rest) := by
  cases rest with
  | nil => rfl
  | cons c rest =>
    have hk : c.kind = .closing := hends c rfl
    simp [absorb, isBetween, isAfter, hk]

/-- An expression does not begin with a closing parenthesis. -/
theorem closed?_begins (h : Begins d ts) (rest : List Token) : closed? (ts ++ rest) = none := by
  cases h with
  | before ht _ => simp [closed?, (isBefore_kind ht).1]
  | primary hprimary _ =>
    cases hprimary with
    | atom hk => rcases hk with hk | hk <;> simp [closed?, hk]
    | group ho h hc => simp [closed?, ho]
    | call hf h hc => simp [closed?, hf]
    | bareCall hf hc => simp [closed?, hf]

section Step

variable (ih : Succeeds d fuel)
include ih

theorem Succeeds.climb_succ (pending : Option Token) (h : d.Infix ts) (hends : Ends rest)
    (hfuel : 2 * ts.length + 1 ≤ fuel + 1) :
    ∃ tree tail, Climbing.climb d (fuel + 1) pending (ts ++ rest) = some (tree, tail ++ rest) ∧
      Tail d tail ∧ tail.length < ts.length ∧ (pending = none → tail = []) := by
  obtain ⟨first, tail, hfirst, htail, hlt⟩ := ih.operand h hends (by omega)
  obtain ⟨tree, tail', habsorb, htail', hle, hnone⟩ :=
    ih.absorb pending first htail hends (by omega)
  refine ⟨tree, tail', ?_, htail', by omega, hnone⟩
  rw [Climbing.climb, hfirst]
  exact habsorb

/-- What stands in parentheses is read up to the closing one. -/
theorem Succeeds.inner {c : Token} (h : d.Infix ts) (hc : c.kind = .closing)
    (hfuel : 2 * ts.length + 1 ≤ fuel) (rest : List Token) :
    ∃ tree, Climbing.climb d fuel none (ts ++ c :: rest) = some (tree, c :: rest) := by
  have hends : Ends (c :: rest) := by simpa [Ends] using hc
  obtain ⟨tree, tail, hclimb, -, -, hnone⟩ := ih.climb none h hends hfuel
  rw [hnone rfl] at hclimb
  exact ⟨tree, hclimb⟩

theorem Succeeds.primary {us : List Token} (h : d.Primary us)
    (hfuel : 2 * us.length ≤ fuel + 1) (rest : List Token) :
    ∃ tree, Climbing.operand d (fuel + 1) (us ++ rest) = some (tree, rest) := by
  cases h with
  | atom h => rcases h with h | h <;> simp [Climbing.operand, h]
  | group ho h hc =>
    rename_i o c ts
    obtain ⟨tree, hclimb⟩ := ih.inner h hc (by simp at hfuel; omega) rest
    exact ⟨tree, by simp [Climbing.operand, ho, hclimb, closed?, hc]⟩
  | call hf h hc =>
    rename_i f c ts
    obtain ⟨tree, hclimb⟩ := ih.inner h hc (by simp at hfuel; omega) rest
    have hargs := closed?_begins h.begins (c :: rest)
    have hclosed : closed? (c :: rest) = some rest := if_pos hc
    exact ⟨.node f nothing tree, by simp [Climbing.operand, hf, hargs, hclimb, hclosed]⟩
  | bareCall hf hc =>
    rename_i f c
    exact ⟨.node f nothing nothing, by simp [Climbing.operand, hf, closed?, hc]⟩

theorem Succeeds.operand_succ (h : d.Infix ts) (hends : Ends rest)
    (hfuel : 2 * ts.length ≤ fuel + 1) :
    ∃ tree tail, Climbing.operand d (fuel + 1) (ts ++ rest) = some (tree, tail ++ rest) ∧
      Tail d tail ∧ tail.length < ts.length := by
  cases h.begins with
  | before ht hrest =>
    rename_i t ts
    obtain ⟨tree, tail, hclimb, htail, hlt, -⟩ :=
      ih.climb (some t) hrest hends (by simp at hfuel; omega)
    refine ⟨.node t nothing tree, tail, ?_, htail, by simp; omega⟩
    simp [Climbing.operand, (isBefore_kind ht).1, ht, hclimb]
  | primary hprimary htail =>
    rename_i us tail
    have hpos : 0 < us.length := by cases hprimary <;> simp
    obtain ⟨tree, hread⟩ := ih.primary hprimary (by simp at hfuel; omega) (tail ++ rest)
    exact ⟨tree, tail, by rwa [List.append_assoc], htail, by simp; omega⟩

theorem Succeeds.absorb_succ (pending : Option Token) (left : Tree) (h : Tail d ts) (hends : Ends rest)
    (hfuel : 2 * ts.length + 1 ≤ fuel + 1) :
    ∃ tree tail, Climbing.absorb d (fuel + 1) pending left (ts ++ rest) =
        some (tree, tail ++ rest) ∧
      Tail d tail ∧ tail.length ≤ ts.length ∧ (pending = none → tail = []) := by
  cases h with
  | nil => exact ⟨left, [], absorb_ends hends, .nil, by simp, fun _ => rfl⟩
  | after ht h =>
    rename_i n ts
    by_cases hout : pending.any (d.outranks · n)
    · refine ⟨left, n :: ts, by simp [Climbing.absorb, hout], .after ht h, by simp, ?_⟩
      rintro rfl
      cases hout
    · obtain ⟨tree, tail, habsorb, htail, hle, hnone⟩ :=
        ih.absorb pending (.node n left nothing) h hends
          (by simp at hfuel; omega)
      have hb : ¬ d.isBetween n := by simp [isBetween, (isAfter_kind ht).1]
      refine ⟨tree, tail, ?_, htail, by simp; omega, hnone⟩
      rw [List.cons_append, Climbing.absorb, if_neg hout, if_neg hb, if_pos ht, habsorb]
  | between ht h =>
    rename_i n ts
    by_cases hout : pending.any (d.outranks · n)
    · refine ⟨left, n :: ts, by simp [Climbing.absorb, hout], .between ht h, by simp, ?_⟩
      rintro rfl
      cases hout
    · obtain ⟨right, us, hclimb, hus, hlt, -⟩ :=
        ih.climb (some n) h hends (by simp at hfuel; omega)
      obtain ⟨tree, tail, habsorb, htail, hle, hnone⟩ :=
        ih.absorb pending (.node n left right) hus hends
          (by simp at hfuel; omega)
      refine ⟨tree, tail, ?_, htail, by simp; omega, hnone⟩
      rw [List.cons_append, Climbing.absorb, if_neg hout, if_pos ht, hclimb]
      exact habsorb

end Step

theorem succeeds (d : Dialect) (fuel : Nat) : Succeeds d fuel := by
  induction fuel with
  | zero =>
    constructor
    · intro pending ts rest h hends hfuel
      omega
    · intro ts rest h hends hfuel
      exact absurd hfuel (by have := h.begins.length_pos; omega)
    · intro pending left ts rest h hends hfuel
      omega
  | succ fuel ih => exact ⟨fun p => ih.climb_succ p, ih.operand_succ, fun p l => ih.absorb_succ p l⟩

/-- Climbing makes a tree of every expression. -/
theorem exists_tree? (h : d.Infix ts) : ∃ tree, tree? d ts = some tree := by
  have hends : Ends [] := by simp [Ends]
  obtain ⟨tree, tail, hclimb, -, -, hnone⟩ :=
    (succeeds d (2 * ts.length + 2)).climb none h hends (by omega)
  rw [hnone rfl] at hclimb
  refine ⟨tree, ?_⟩
  rw [List.append_nil] at hclimb
  rw [tree?, hclimb]
  rfl

end Climbing

end Reckon
