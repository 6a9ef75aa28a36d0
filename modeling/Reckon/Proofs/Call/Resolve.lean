import Reckon.Call.Resolve
import Reckon.Proofs.Call.Shapes
import Reckon.Scalar

/-!
# Overload resolution

What resolution has to find, said by the declarations alone: the first overload whose shape fits
(`Callable.FirstFit`), the first argument whose text breaks the rule that decides on it
(`Callable.FirstBreak`), and what follows of them for a call (`Callable.Outcome`).  Resolution gives
exactly that (`Callable.resolves_as_declared`).
-/

namespace Reckon

/-! ## The rule that decides -/

namespace Scope

/-- The scope takes in argument `index` of `count`. -/
def Covers (index count : Nat) : Scope → Prop
  | all => True
  | last => index + 1 = count
  | position i => i = index

/-- How special the scope is. -/
def precedence : Scope → Nat
  | all => 0
  | position _ => 1
  | last => 2

theorem precedence_le_last (s : Scope) : s.precedence ≤ last.precedence := by
  cases s <;> simp [precedence]

end Scope

namespace Scoped

variable {α : Type} {rules : List (Scoped α)} {scope : Scope} {index count : Nat} {rule : α}

/-- The rule stands first of those with its scope. -/
def IsFirst (rules : List (Scoped α)) (scope : Scope) (rule : α) : Prop :=
  ∃ before after, rules = before ++ ⟨scope, rule⟩ :: after ∧ ∀ r ∈ before, r.scope ≠ scope

/-- The rule decides on argument `index` of `count`: no rule for the argument is more special, and
of those that are as special it stands first. -/
def Decides (rules : List (Scoped α)) (index count : Nat) (rule : α) : Prop :=
  ∃ scope : Scope, scope.Covers index count ∧ IsFirst rules scope rule ∧
    ∀ r ∈ rules, r.scope.Covers index count → r.scope.precedence ≤ scope.precedence

theorem ofScope?_eq_some_iff : ofScope? rules scope = some rule ↔ IsFirst rules scope rule := by
  rw [ofScope?, Option.map_eq_some_iff]
  constructor
  · rintro ⟨r, hfind, rfl⟩
    obtain ⟨hr, before, after, hrules, hbefore⟩ := List.find?_eq_some_iff_append.mp hfind
    rw [beq_iff_eq] at hr
    refine ⟨before, after, by rw [hrules, ← hr], fun r' hr' => ?_⟩
    simpa using hbefore r' hr'
  · rintro ⟨before, after, hrules, hbefore⟩
    refine ⟨⟨scope, rule⟩, List.find?_eq_some_iff_append.mpr ?_, rfl⟩
    exact ⟨beq_self_eq_true scope, before, after, hrules, fun r hr => by simpa using hbefore r hr⟩

theorem ofScope?_eq_none_iff : ofScope? rules scope = none ↔ ∀ r ∈ rules, r.scope ≠ scope := by
  simp [ofScope?]

theorem IsFirst.mem (h : IsFirst rules scope rule) : ⟨scope, rule⟩ ∈ rules := by
  obtain ⟨before, after, rfl, -⟩ := h
  simp

/-- A rule for the last argument is looked for first, then one for the position, then one for all;
this is the order of precedence. -/
theorem effective_eq_some_iff :
    effective rules index count = some rule ↔ Decides rules index count rule := by
  have hlast : (if index + 1 = count then ofScope? rules .last else none) = none ↔
      ∀ r ∈ rules, r.scope.Covers index count → r.scope ≠ .last := by
    split
    · rename_i hcount
      rw [ofScope?_eq_none_iff]
      refine forall₂_congr fun r _ => ⟨fun h _ => h, fun h hr => h ?_ hr⟩
      rw [hr]
      exact hcount
    · rename_i hcount
      refine ⟨fun _ r _ hcovers hr => hcount ?_, fun _ => rfl⟩
      rwa [hr] at hcovers
  simp only [effective, Option.or_eq_some_iff, hlast, ofScope?_eq_none_iff,
    Option.ite_none_right_eq_some, ofScope?_eq_some_iff]
  constructor
  · rintro (⟨hcount, hfirst⟩ | ⟨hnolast, hfirst | ⟨hnoposition, hfirst⟩⟩)
    · exact ⟨.last, hcount, hfirst, fun r _ _ => r.scope.precedence_le_last⟩
    · refine ⟨.position index, rfl, hfirst, fun r hr hcovers => ?_⟩
      have hne := hnolast r hr hcovers
      cases hscope : r.scope with
      | last => exact absurd hscope hne
      | all => exact Nat.zero_le _
      | position i => exact Nat.le_refl _
    · refine ⟨.all, trivial, hfirst, fun r hr hcovers => ?_⟩
      have hne := hnolast r hr hcovers
      have hne' := hnoposition r hr
      cases hscope : r.scope with
      | last => exact absurd hscope hne
      | all => exact Nat.le_refl _
      | position i =>
        rw [hscope] at hcovers
        exact absurd (hscope.trans (congrArg _ hcovers)) hne'
  · rintro ⟨scope, hcovers, hfirst, hmost⟩
    have hnone : ∀ other : Scope, scope.precedence < other.precedence →
        ∀ r ∈ rules, r.scope.Covers index count → r.scope ≠ other := by
      intro other hlt r hr hcovers' heq
      have hle := hmost r hr hcovers'
      rw [heq] at hle
      omega
    cases scope with
    | last => exact .inl ⟨hcovers, hfirst⟩
    | position i =>
      obtain rfl : i = index := hcovers
      exact .inr ⟨hnone .last (Nat.lt_succ_self 1), .inl hfirst⟩
    | all =>
      refine .inr ⟨hnone .last Nat.zero_lt_two, .inr ⟨fun r hr heq => ?_, hfirst⟩⟩
      exact hnone (.position index) (Nat.zero_lt_one) r hr (by rw [heq]; rfl) heq

end Scoped

/-! ## What the declarations say -/

variable {D : Domain}

/-- Kinds of arguments fit the shape of the overload. -/
def Overload.Fits (o : Overload D) (lenient : Bool) (kinds : List D.Kind) : Prop :=
  Inputs.Fits (Inputs.FitsSet D.assignable lenient) o.inputs kinds

theorem Overload.accepts_iff_fits {o : Overload D} {lenient : Bool} {kinds : List D.Kind} :
    o.accepts lenient kinds ↔ o.Fits lenient kinds := Inputs.accepts_iff_fits

namespace Callable

/-- The first overload in the declaration that fits. -/
structure FirstFit (c : Callable D) (lenient : Bool) (kinds : List D.Kind) (choice : Choice D) :
    Prop where
  declared : c.overloads[choice.index]? = some choice.overload
  fits : choice.overload.Fits lenient kinds
  earlier : ∀ i < choice.index, ∀ o, c.overloads[i]? = some o → ¬ o.Fits lenient kinds

section

variable {α : Type}

/-- Argument `index` is written as a text that the rule which decides on it does not allow. -/
structure Breaks (allows : α → String → Bool) (rules : List (Scoped α))
    (arguments : List (Argument D.Kind)) (index : Nat) (text : String) (rule : α) : Prop where
  written : arguments[index]?.bind (·.text) = some text
  decides : Scoped.Decides rules index arguments.length rule
  forbidden : ¬ allows rule text

/-- No argument breaks the rule that decides on it. -/
def Obeys (allows : α → String → Bool) (rules : List (Scoped α))
    (arguments : List (Argument D.Kind)) : Prop :=
  ∀ index text rule, ¬ Breaks allows rules arguments index text rule

/-- The first argument that breaks the rule which decides on it. -/
structure FirstBreak (allows : α → String → Bool) (rules : List (Scoped α))
    (arguments : List (Argument D.Kind)) (index : Nat) (text : String) (rule : α) : Prop where
  breaks : Breaks allows rules arguments index text rule
  earlier : ∀ i < index, ∀ text rule, ¬ Breaks allows rules arguments i text rule

end

/-- What becomes of a call.  Once an overload fits there is no way back to a later one: values,
formats, the overload and the callable have their say, in this order. -/
inductive Outcome (c : Callable D) (arguments : List (Argument D.Kind)) (lenient : Bool) :
    Except Refusal (Choice D) → Prop
  | noMatch (hnone : ∀ o ∈ c.overloads, ¬ o.Fits lenient (arguments.map (·.kind))) :
      Outcome c arguments lenient (.error (.noMatch c.name
        ((arguments.map (·.kind)).map D.kindLabel) (c.overloads.map (·.describe c.name))))
  | value {choice : Choice D} {index : Nat} {text : String} {rule : ValueRule}
      (hfit : c.FirstFit lenient (arguments.map (·.kind)) choice)
      (hbreak : FirstBreak ValueRule.allows c.values arguments index text rule) :
      Outcome c arguments lenient (.error (.valueNotAllowed c.name index text rule.allowed))
  | format {choice : Choice D} {index : Nat} {text : String} {rule : FormatRule}
      (hfit : c.FirstFit lenient (arguments.map (·.kind)) choice)
      (hvalues : Obeys ValueRule.allows c.values arguments)
      (hbreak : FirstBreak FormatRule.allows c.formats arguments index text rule) :
      Outcome c arguments lenient (.error (.formatNotAllowed c.name index text))
  | byOverload {choice : Choice D} {reason : String}
      (hfit : c.FirstFit lenient (arguments.map (·.kind)) choice)
      (hvalues : Obeys ValueRule.allows c.values arguments)
      (hformats : Obeys FormatRule.allows c.formats arguments)
      (hrefuses : choice.overload.validate arguments = .error reason) :
      Outcome c arguments lenient (.error (.byOverload c.name reason))
  | byCallable {choice : Choice D} {reason : String}
      (hfit : c.FirstFit lenient (arguments.map (·.kind)) choice)
      (hvalues : Obeys ValueRule.allows c.values arguments)
      (hformats : Obeys FormatRule.allows c.formats arguments)
      (haccepts : choice.overload.validate arguments = .ok ())
      (hrefuses : c.validate arguments = .error reason) :
      Outcome c arguments lenient (.error (.byCallable c.name reason))
  | chosen {choice : Choice D}
      (hfit : c.FirstFit lenient (arguments.map (·.kind)) choice)
      (hvalues : Obeys ValueRule.allows c.values arguments)
      (hformats : Obeys FormatRule.allows c.formats arguments)
      (haccepts : choice.overload.validate arguments = .ok ())
      (hagrees : c.validate arguments = .ok ()) :
      Outcome c arguments lenient (.ok choice)

/-! ## Searching overloads -/

section

variable {lenient : Bool} {kinds : List D.Kind} {start : Nat} {overloads : List (Overload D)}

theorem firstFitting_eq_none_iff :
    firstFitting lenient kinds start overloads = none ↔
      ∀ o ∈ overloads, ¬ o.Fits lenient kinds := by
  induction overloads generalizing start with
  | nil => simp [firstFitting]
  | cons o os ih =>
    rw [firstFitting, List.forall_mem_cons, ← @ih (start + 1), ← Overload.accepts_iff_fits]
    split <;> simp_all only [not_true_eq_false, false_and, reduceCtorEq, not_false_eq_true,
      true_and]

theorem firstFitting_eq_some_iff {choice : Choice D} :
    firstFitting lenient kinds start overloads = some choice ↔
      ∃ i, choice.index = start + i ∧ overloads[i]? = some choice.overload ∧
        choice.overload.Fits lenient kinds ∧
        ∀ j < i, ∀ o, overloads[j]? = some o → ¬ o.Fits lenient kinds := by
  induction overloads generalizing start with
  | nil => simp [firstFitting]
  | cons o os ih =>
    rw [firstFitting]
    by_cases hfits : o.Fits lenient kinds
    · rw [if_pos (Overload.accepts_iff_fits.mpr hfits)]
      constructor
      · intro h
        obtain rfl := Option.some.inj h
        exact ⟨0, rfl, rfl, hfits, fun j hj => absurd hj (Nat.not_lt_zero j)⟩
      · rintro ⟨i, hindex, hdeclared, -, hearlier⟩
        cases i with
        | zero =>
          obtain ⟨index, overload⟩ := choice
          obtain rfl : o = overload := Option.some.inj hdeclared
          obtain rfl : index = start := hindex
          rfl
        | succ i => exact absurd hfits (hearlier 0 (Nat.succ_pos i) o rfl)
    · rw [if_neg fun h => hfits (Overload.accepts_iff_fits.mp h), ih]
      constructor
      · rintro ⟨i, hindex, hdeclared, hchoice, hearlier⟩
        refine ⟨i + 1, by omega, hdeclared, hchoice, fun j hj o' ho' => ?_⟩
        cases j with
        | zero => exact Option.some.inj ho' ▸ hfits
        | succ j => exact hearlier j (by omega) o' ho'
      · rintro ⟨i, hindex, hdeclared, hchoice, hearlier⟩
        cases i with
        | zero => exact absurd (Option.some.inj hdeclared ▸ hchoice) hfits
        | succ i =>
          exact ⟨i, by omega, hdeclared, hchoice, fun j hj => hearlier (j + 1) (by omega)⟩

end

theorem firstFitting_eq_some_iff_firstFit {c : Callable D} {lenient : Bool} {kinds : List D.Kind}
    {choice : Choice D} :
    firstFitting lenient kinds 0 c.overloads = some choice ↔ c.FirstFit lenient kinds choice := by
  simp only [firstFitting_eq_some_iff, Nat.zero_add]
  constructor
  · rintro ⟨i, rfl, hdeclared, hfits, hearlier⟩
    exact ⟨hdeclared, hfits, hearlier⟩
  · rintro ⟨hdeclared, hfits, hearlier⟩
    exact ⟨_, rfl, hdeclared, hfits, hearlier⟩

/-! ## Searching arguments -/

section

variable {check : Nat → String → Option Refusal} {start : Nat}
  {arguments : List (Argument D.Kind)}

theorem firstBroken_eq_none_iff :
    firstBroken check start arguments = none ↔
      ∀ i text, arguments[i]?.bind (·.text) = some text → check (start + i) text = none := by
  induction arguments generalizing start with
  | nil => simp [firstBroken]
  | cons a as ih =>
    rw [firstBroken, Option.or_eq_none_iff, ih, Option.bind_eq_none_iff]
    constructor
    · rintro ⟨hhead, htail⟩ i text htext
      cases i with
      | zero => exact hhead text htext
      | succ i => exact Nat.succ_add_eq_add_succ start i ▸ htail i text htext
    · intro h
      exact ⟨h 0, fun i text htext => Nat.succ_add_eq_add_succ start i ▸ h (i + 1) text htext⟩

theorem firstBroken_eq_some_iff {refusal : Refusal} :
    firstBroken check start arguments = some refusal ↔
      ∃ i text, arguments[i]?.bind (·.text) = some text ∧
        check (start + i) text = some refusal ∧
        ∀ j < i, ∀ text, arguments[j]?.bind (·.text) = some text →
          check (start + j) text = none := by
  induction arguments generalizing start with
  | nil => simp [firstBroken]
  | cons a as ih =>
    rw [firstBroken, Option.or_eq_some_iff, ih, Option.bind_eq_some_iff, Option.bind_eq_none_iff]
    constructor
    · rintro (⟨text, htext, hcheck⟩ | ⟨hhead, i, text, htext, hcheck, hearlier⟩)
      · exact ⟨0, text, htext, hcheck, fun j hj => absurd hj (Nat.not_lt_zero j)⟩
      · refine ⟨i + 1, text, htext, Nat.succ_add_eq_add_succ start i ▸ hcheck, ?_⟩
        intro j hj text htext
        cases j with
        | zero => exact hhead text htext
        | succ j => exact Nat.succ_add_eq_add_succ start j ▸ hearlier j (by omega) text htext
    · rintro ⟨i, text, htext, hcheck, hearlier⟩
      cases i with
      | zero => exact .inl ⟨text, htext, hcheck⟩
      | succ i =>
        refine .inr ⟨hearlier 0 (Nat.succ_pos i), i, text, htext, ?_, fun j hj text htext => ?_⟩
        · exact Nat.succ_add_eq_add_succ start i ▸ hcheck
        · exact Nat.succ_add_eq_add_succ start j ▸ hearlier (j + 1) (by omega) text htext

end

section

variable {α : Type} {allows : α → String → Bool} {rules : List (Scoped α)}
  {arguments : List (Argument D.Kind)} {check : Nat → String → Option Refusal}
  {refuse : Nat → String → α → Refusal}

/-- A check refuses exactly the texts that the deciding rule does not allow. -/
def Enforces (check : Nat → String → Option Refusal) (allows : α → String → Bool)
    (rules : List (Scoped α)) (count : Nat) (refuse : Nat → String → α → Refusal) : Prop :=
  ∀ index text refusal, check index text = some refusal ↔
    ∃ rule, Scoped.Decides rules index count rule ∧ ¬ allows rule text ∧
      refuse index text rule = refusal

theorem Enforces.eq_none_iff (h : Enforces check allows rules arguments.length refuse)
    {index : Nat} {text : String} (htext : arguments[index]?.bind (·.text) = some text) :
    check index text = none ↔ ∀ rule, ¬ Breaks allows rules arguments index text rule := by
  rw [Option.eq_none_iff_forall_ne_some]
  constructor
  · intro hnone rule hbreaks
    exact hnone _ ((h ..).mpr ⟨rule, hbreaks.decides, hbreaks.forbidden, rfl⟩)
  · intro hnone refusal hcheck
    obtain ⟨rule, hdecides, hforbidden, -⟩ := (h ..).mp hcheck
    exact hnone rule ⟨htext, hdecides, hforbidden⟩

theorem Enforces.firstBroken_eq_none_iff
    (h : Enforces check allows rules arguments.length refuse) :
    firstBroken check 0 arguments = none ↔ Obeys allows rules arguments := by
  simp only [Callable.firstBroken_eq_none_iff, Nat.zero_add]
  constructor
  · intro hnone index text rule hbreaks
    exact (h.eq_none_iff hbreaks.written).mp (hnone index text hbreaks.written) rule hbreaks
  · intro hobeys index text htext
    exact (h.eq_none_iff htext).mpr (hobeys index text)

theorem Enforces.firstBroken_eq_some_iff
    (h : Enforces check allows rules arguments.length refuse) {refusal : Refusal} :
    firstBroken check 0 arguments = some refusal ↔
      ∃ index text rule, FirstBreak allows rules arguments index text rule ∧
        refuse index text rule = refusal := by
  simp only [Callable.firstBroken_eq_some_iff, Nat.zero_add]
  constructor
  · rintro ⟨index, text, htext, hcheck, hearlier⟩
    obtain ⟨rule, hdecides, hforbidden, hrefuse⟩ := (h ..).mp hcheck
    refine ⟨index, text, rule, ⟨⟨htext, hdecides, hforbidden⟩, ?_⟩, hrefuse⟩
    intro j hj text rule hbreaks
    exact (h.eq_none_iff hbreaks.written).mp (hearlier j hj text hbreaks.written) rule hbreaks
  · rintro ⟨index, text, rule, ⟨⟨htext, hdecides, hforbidden⟩, hearlier⟩, hrefuse⟩
    refine ⟨index, text, htext, (h ..).mpr ⟨rule, hdecides, hforbidden, hrefuse⟩, ?_⟩
    exact fun j hj text htext => (h.eq_none_iff htext).mpr (hearlier j hj text)

end

/-! ## Resolving -/

theorem enforces_checkValue (c : Callable D) (count : Nat) :
    Enforces (c.checkValue count) ValueRule.allows c.values count
      fun index text rule => .valueNotAllowed c.name index text rule.allowed := by
  intro index text refusal
  simp only [checkValue, ← Scoped.effective_eq_some_iff]
  cases Scoped.effective c.values index count <;> simp

theorem enforces_checkFormat (c : Callable D) (count : Nat) :
    Enforces (c.checkFormat count) FormatRule.allows c.formats count
      fun index text _ => .formatNotAllowed c.name index text := by
  intro index text refusal
  simp only [checkFormat, ← Scoped.effective_eq_some_iff]
  cases Scoped.effective c.formats index count <;> simp

variable {c : Callable D} {arguments : List (Argument D.Kind)} {lenient : Bool}

theorem brokenRule_eq_none_iff :
    c.brokenRule arguments = none ↔
      Obeys ValueRule.allows c.values arguments ∧ Obeys FormatRule.allows c.formats arguments := by
  rw [brokenRule, Option.or_eq_none_iff, (enforces_checkValue c _).firstBroken_eq_none_iff,
    (enforces_checkFormat c _).firstBroken_eq_none_iff]

theorem brokenRule_eq_some_iff {refusal : Refusal} :
    c.brokenRule arguments = some refusal ↔
      (∃ index text rule, FirstBreak ValueRule.allows c.values arguments index text rule ∧
        .valueNotAllowed c.name index text rule.allowed = refusal) ∨
      Obeys ValueRule.allows c.values arguments ∧
        ∃ index text rule, FirstBreak FormatRule.allows c.formats arguments index text rule ∧
          .formatNotAllowed c.name index text = refusal := by
  rw [brokenRule, Option.or_eq_some_iff, (enforces_checkValue c _).firstBroken_eq_none_iff,
    (enforces_checkValue c _).firstBroken_eq_some_iff,
    (enforces_checkFormat c _).firstBroken_eq_some_iff]

theorem outcome_resolve (c : Callable D) (arguments : List (Argument D.Kind)) (lenient : Bool) :
    c.Outcome arguments lenient (c.resolve arguments lenient) := by
  rw [resolve]
  split
  · rename_i hnone
    exact .noMatch (firstFitting_eq_none_iff.mp hnone)
  · rename_i choice hchoice
    have hfit := firstFitting_eq_some_iff_firstFit.mp hchoice
    split
    · rename_i refusal hbroken
      obtain ⟨index, text, rule, hbreak, rfl⟩ | ⟨hvalues, index, text, rule, hbreak, rfl⟩ :=
        brokenRule_eq_some_iff.mp hbroken
      · exact .value hfit hbreak
      · exact .format hfit hvalues hbreak
    · rename_i hunbroken
      obtain ⟨hvalues, hformats⟩ := brokenRule_eq_none_iff.mp hunbroken
      split
      · rename_i hrefuses
        exact .byOverload hfit hvalues hformats hrefuses
      · rename_i haccepts
        split
        · rename_i hrefuses
          exact .byCallable hfit hvalues hformats haccepts hrefuses
        · rename_i hagrees
          exact .chosen hfit hvalues hformats haccepts hagrees

/-- There is one outcome, whichever way it is said. -/
theorem Outcome.resolve_eq {result : Except Refusal (Choice D)}
    (h : c.Outcome arguments lenient result) : c.resolve arguments lenient = result := by
  cases h with
  | noMatch hnone => simp only [resolve, firstFitting_eq_none_iff.mpr hnone]
  | value hfit hbreak =>
    have hbroken := brokenRule_eq_some_iff.mpr (.inl ⟨_, _, _, hbreak, rfl⟩)
    simp only [resolve, firstFitting_eq_some_iff_firstFit.mpr hfit, hbroken]
  | format hfit hvalues hbreak =>
    have hbroken := brokenRule_eq_some_iff.mpr (.inr ⟨hvalues, _, _, _, hbreak, rfl⟩)
    simp only [resolve, firstFitting_eq_some_iff_firstFit.mpr hfit, hbroken]
  | byOverload hfit hvalues hformats hrefuses =>
    simp only [resolve, firstFitting_eq_some_iff_firstFit.mpr hfit,
      brokenRule_eq_none_iff.mpr ⟨hvalues, hformats⟩, hrefuses]
  | byCallable hfit hvalues hformats haccepts hrefuses =>
    simp only [resolve, firstFitting_eq_some_iff_firstFit.mpr hfit,
      brokenRule_eq_none_iff.mpr ⟨hvalues, hformats⟩, haccepts, hrefuses]
  | chosen hfit hvalues hformats haccepts hagrees =>
    simp only [resolve, firstFitting_eq_some_iff_firstFit.mpr hfit,
      brokenRule_eq_none_iff.mpr ⟨hvalues, hformats⟩, haccepts, hagrees]

/-- Resolution does what the declarations say: a result is the result of a call exactly if it is
its outcome, a call matches nothing exactly if no overload fits, and an overload is chosen only if
no earlier one fits. -/
theorem resolves_as_declared (c : Callable D) (arguments : List (Argument D.Kind))
    (lenient : Bool) :
    (∀ result, c.resolve arguments lenient = result ↔ c.Outcome arguments lenient result) ∧
    ((∃ refusal, c.resolve arguments lenient = .error refusal ∧ refusal.isNoMatch) ↔
      ∀ o ∈ c.overloads, ¬ o.Fits lenient (arguments.map (·.kind))) ∧
    ∀ choice, c.resolve arguments lenient = .ok choice →
      c.FirstFit lenient (arguments.map (·.kind)) choice := by
  refine ⟨fun result => ⟨fun h => h ▸ outcome_resolve c arguments lenient, Outcome.resolve_eq⟩,
    ⟨?_, fun hnone => ⟨_, (Outcome.noMatch hnone).resolve_eq, rfl⟩⟩, fun choice h => ?_⟩
  · rintro ⟨refusal, hresolve, hnoMatch⟩
    cases hresolve ▸ outcome_resolve c arguments lenient with
    | noMatch hnone => exact hnone
    | _ => cases hnoMatch
  · cases h ▸ outcome_resolve c arguments lenient with
    | chosen hfit => exact hfit

/-- Numbers between two integers, or any number of integers. -/
def spread : Callable scalars where
  name := "spread"
  overloads :=
    [⟨.variadic ⟨some [.int], [.int, .real], some [.int], 1⟩, .real, fun _ => .ok (),
        fun _ _ => .error ""⟩,
      ⟨.variadic ⟨none, [.int], none, 0⟩, .int, fun _ => .ok (), fun _ _ => .error ""⟩]
  values := [⟨.all, ⟨["1", "2"]⟩⟩, ⟨.position 1, ⟨["5"]⟩⟩, ⟨.last, ⟨["1"]⟩⟩]

/-- The rule for the second argument forbids what the rule for all allows, and there is no way to
the second overload, which fits as well.  Where that rule is obeyed the first overload is taken. -/
theorem spread_outcomes :
    spread.Outcome [⟨.int, some "1"⟩, ⟨.int, some "2"⟩, ⟨.int, some "1"⟩] false
      (.error (.valueNotAllowed "spread" 1 "2" ["5"])) ∧
    ∃ choice,
      spread.resolve [⟨.int, some "1"⟩, ⟨.real, some "5"⟩, ⟨.int, some "1"⟩] false = .ok choice ∧
      spread.FirstFit false [.int, .real, .int] choice := by
  refine ⟨((resolves_as_declared spread _ false).1 _).mp rfl, _, rfl, ?_⟩
  exact (resolves_as_declared spread
    [⟨.int, some "1"⟩, ⟨.real, some "5"⟩, ⟨.int, some "1"⟩] false).2.2 _ rfl

end Callable

end Reckon
