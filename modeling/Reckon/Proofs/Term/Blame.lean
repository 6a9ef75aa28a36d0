import Reckon.Proofs.Call.Resolve
import Reckon.Proofs.Except
import Reckon.Proofs.Term.Judgment

/-!
# Rules and blame

`Typing.HasKind` gives the rules of typing, which do not mention any order in which nodes are looked
at.  A node without kind is to blame if nothing below it is (`Typing.Blamed`), and `Typing.Blames`
says what for.  A judgment tells the one fault of a node that is to blame, and none of any other
(`Typing.judged`).
-/

namespace Reckon

variable {D : Domain} {d : Dialect} {u : Tree}

/-- The node calls something, but lacks an operand. -/
def Tree.Lacks (d : Dialect) (u : Tree) : Prop :=
  ∃ sort, Term.callSort? u.kind = some sort ∧
    (u.operands d).length < sort.wanted (u.operands d).length

theorem Tree.not_lacks_of_callSort?_none (hk : Term.callSort? u.kind = none) : ¬ u.Lacks d := by
  rintro ⟨sort, hsort, -⟩
  rw [hk] at hsort
  cases hsort

namespace Typing

variable {s : Typing D}

/-! ## Resolution -/

section

variable {c : Callable D} {arguments : List (Argument D.Kind)}

/-- What becomes of a call: kinds are taken as they are, and may stand for others only if no
overload fits them. -/
inductive Selects (s : Typing D) (c : Callable D) (arguments : List (Argument D.Kind)) :
    Except Refusal (Choice D) → Prop
  | exact {choice : Choice D} (h : c.Outcome arguments false (.ok choice)) :
      Selects s c arguments (.ok choice)
  | widened {refusal : Refusal} {result : Except Refusal (Choice D)}
      (hexact : c.Outcome arguments false (.error refusal)) (hnoMatch : refusal.isNoMatch)
      (hlenient : s.lenient) (h : c.Outcome arguments true result) : Selects s c arguments result
  | refused {refusal : Refusal} (h : c.Outcome arguments false (.error refusal))
      (hstays : ¬ (refusal.isNoMatch ∧ s.lenient)) : Selects s c arguments (.error refusal)

theorem choose_eq_iff_selects {result : Except Refusal (Choice D)} :
    s.choose c arguments = result ↔ s.Selects c arguments result := by
  have hexact := Callable.outcome_resolve c arguments false
  rw [choose]
  constructor
  · rintro rfl
    split
    · rename_i hresolve
      exact .exact (hresolve ▸ hexact)
    · rename_i refusal hresolve
      rw [hresolve] at hexact
      split
      · rename_i hretry
        obtain ⟨hnoMatch, hlenient⟩ := Bool.and_eq_true .. ▸ hretry
        exact .widened hexact hnoMatch hlenient (Callable.outcome_resolve c arguments true)
      · rename_i hstays
        exact .refused hexact fun h => hstays (Bool.and_eq_true .. ▸ h)
  · intro h
    cases h with
    | exact h => rw [h.resolve_eq]
    | widened hexact hnoMatch hlenient h =>
      simp only [hexact.resolve_eq, hnoMatch, hlenient, Bool.and_self, if_true, h.resolve_eq]
    | @refused refusal h hstays =>
      have hstays : ¬ (refusal.isNoMatch && s.lenient) := fun h' =>
        hstays (Bool.and_eq_true .. ▸ h')
      simp only [h.resolve_eq, if_neg hstays]

end

/-! ## Rules -/

/-- The tree has the kind: a literal is read, a variable is given a kind, and a call has all its
operands, each of them with a kind, and a declared name whose resolution selects an overload. -/
inductive HasKind (s : Typing D) (d : Dialect) : Tree → D.Kind → Prop
  | literal {u : Tree} {v : D.Value} (hk : u.kind = .literal)
      (hread : D.readLiteral u.token.text = some v) : HasKind s d u (D.kindOf v)
  | name {u : Tree} {kind : D.Kind} (hk : u.kind = .identifier)
      (hkind : s.kindOf u.token.text = some kind) : HasKind s d u kind
  | call {u : Tree} {sort : CallSort} {kinds : List D.Kind} {c : Callable D} {choice : Choice D}
      (hsort : Term.callSort? u.kind = some sort) (hpresent : ¬ u.Lacks d)
      (hlength : kinds.length = (u.operands d).length)
      (hoperands : ∀ p ∈ (u.operands d).zip kinds, HasKind s d p.1 p.2)
      (hdeclared : s.catalog.callable? sort u.token.text = some c)
      (hselects : s.Selects c (argumentsWith (u.operands d) kinds) (.ok choice)) :
      HasKind s d u choice.overload.output

def Typable (s : Typing D) (d : Dialect) (u : Tree) : Prop := ∃ kind, s.HasKind d u kind

/-- The node itself is to blame: it lacks an operand, or has no kind although all its operands
have. -/
def Blamed (s : Typing D) (d : Dialect) (u : Tree) : Prop :=
  u.Lacks d ∨ ¬ s.Typable d u ∧ ∀ v ∈ u.operands d, s.Typable d v

/-- What a node below the token `owner` is blamed for. -/
inductive Blames (s : Typing D) (d : Dialect) (owner : Option Token) (u : Tree) : TypeFault → Prop
  | literal (hk : u.kind = .literal) (hread : D.readLiteral u.token.text = none) :
      Blames s d owner u (.invalidLiteral u.token)
  | name (hk : u.kind = .identifier) (hkind : s.kindOf u.token.text = none) :
      Blames s d owner u (.unbound u.token)
  | missing (hk : u.kind = .missing) : Blames s d owner u (.missingOperand owner)
  | separator (hk : u.kind = .separator) : Blames s d owner u (.orphanSeparator u.token)
  | paren (hk : u.kind = .opening ∨ u.kind = .closing) : Blames s d owner u (.alien u.token)
  | lacks (h : u.Lacks d) : Blames s d owner u (.missingOperand (some u.token))
  | undeclared {sort : CallSort} (hsort : Term.callSort? u.kind = some sort)
      (hpresent : ¬ u.Lacks d) (hoperands : ∀ v ∈ u.operands d, s.Typable d v)
      (hnone : s.catalog.callable? sort u.token.text = none) :
      Blames s d owner u (.undeclared sort u.token)
  | refused {sort : CallSort} {kinds : List D.Kind} {c : Callable D} {refusal : Refusal}
      (hsort : Term.callSort? u.kind = some sort) (hpresent : ¬ u.Lacks d)
      (hlength : kinds.length = (u.operands d).length)
      (hoperands : ∀ p ∈ (u.operands d).zip kinds, s.HasKind d p.1 p.2)
      (hdeclared : s.catalog.callable? sort u.token.text = some c)
      (hselects : s.Selects c (argumentsWith (u.operands d) kinds) (.error refusal)) :
      Blames s d owner u (.refused refusal u.token.span)

/-! ## Rules and judgments -/

theorem HasKind.kind_eq {kind : D.Kind} (h : s.HasKind d u kind) : s.kind? d u = some kind := by
  induction h with
  | @literal u v hk hread =>
    have htoken : u.token.kind = .literal := hk
    rw [← kind_judgment s d none, judgment, hk]
    show (s.judgeToken none u.token).kind = _
    simp only [judgeToken, htoken, hread]
    rfl
  | @name u kind hk hkind =>
    have htoken : u.token.kind = .identifier := hk
    rw [← kind_judgment s d none, judgment, hk]
    show (s.judgeToken none u.token).kind = _
    simp only [judgeToken, htoken, hkind]
    rfl
  | @call u sort kinds c choice hsort hpresent hlength _ hdeclared hselects ih =>
    have hkinds : (u.operands d).mapM (s.kind? d) = some kinds :=
      mapM_eq_some_iff.mpr ⟨hlength, ih⟩
    rw [← kind_judgment s d none, judgment, hsort]
    dsimp only
    rw [judgeCall_of_some (fun h => hpresent ⟨sort, hsort, h⟩) hkinds]
    simp only [hdeclared, choose_eq_iff_selects.mpr hselects]

theorem HasKind.not_lacks {kind : D.Kind} (h : s.HasKind d u kind) : ¬ u.Lacks d := by
  cases h with
  | literal hk => exact Tree.not_lacks_of_callSort?_none (by rw [hk]; rfl)
  | name hk => exact Tree.not_lacks_of_callSort?_none (by rw [hk]; rfl)
  | call _ hpresent => exact hpresent

/-- What a judgment says: the kind of the node, what it is blamed for, or nothing because an operand
has no kind. -/
inductive Judged (s : Typing D) (d : Dialect) (owner : Option Token) (u : Tree) :
    Judgment D → Prop
  | typed {kind : D.Kind} {overload : Option (Overload D)} (h : s.HasKind d u kind) :
      Judged s d owner u ⟨some kind, overload, []⟩
  | blamed {f : TypeFault} (hblamed : s.Blamed d u) (h : s.Blames d owner u f) :
      Judged s d owner u ⟨none, none, [f]⟩
  | spared {v : Tree} (hpresent : ¬ u.Lacks d) (hv : v ∈ u.operands d) (h : ¬ s.Typable d v) :
      Judged s d owner u ⟨none, none, []⟩

theorem not_typable_of_kind {owner : Option Token} (h : (s.judgment d owner u).kind = none) :
    ¬ s.Typable d u := by
  rintro ⟨kind, hkind⟩
  rw [kind_judgment, hkind.kind_eq] at h
  cases h

/-- A node that calls nothing has no operands, so it is to blame if it has no kind. -/
theorem blamed_of_callSort?_none (hk : Term.callSort? u.kind = none) (h : ¬ s.Typable d u) :
    s.Blamed d u := by
  refine .inr ⟨h, fun v hv => ?_⟩
  rw [Tree.operands_of_callSort?_none hk] at hv
  cases hv

theorem judged_token {owner : Option Token} (hk : Term.callSort? u.kind = none) :
    s.Judged d owner u (s.judgment d owner u) := by
  have hblamed : (s.judgment d owner u).kind = none → s.Blamed d u := fun h =>
    blamed_of_callSort?_none hk (not_typable_of_kind h)
  rw [judgment, hk] at hblamed ⊢
  dsimp only at hblamed ⊢
  unfold judgeToken at hblamed ⊢
  cases hkind : u.token.kind with
  | literal =>
    simp only [hkind] at hblamed ⊢
    cases hread : D.readLiteral u.token.text with
    | some v => exact .typed (.literal hkind hread)
    | none =>
      rw [hread] at hblamed
      exact .blamed (hblamed rfl) (.literal hkind hread)
  | identifier =>
    simp only [hkind] at hblamed ⊢
    cases hof : s.kindOf u.token.text with
    | some kind => exact .typed (.name hkind hof)
    | none =>
      rw [hof] at hblamed
      exact .blamed (hblamed rfl) (.name hkind hof)
  | missing =>
    rw [hkind] at hblamed
    exact .blamed (hblamed rfl) (.missing hkind)
  | separator =>
    rw [hkind] at hblamed
    exact .blamed (hblamed rfl) (.separator hkind)
  | opening =>
    rw [hkind] at hblamed
    exact .blamed (hblamed rfl) (.paren (.inl hkind))
  | closing =>
    rw [hkind] at hblamed
    exact .blamed (hblamed rfl) (.paren (.inr hkind))
  | operator | unary | call =>
    rw [Tree.kind, hkind] at hk
    cases hk

/-- The judgment of a call, if what is said of its operands is right. -/
theorem judged_call {sort : CallSort} {owner : Option Token}
    (hsort : Term.callSort? u.kind = some sort)
    (hoperands : ∀ v ∈ u.operands d, ∀ kind, s.kind? d v = some kind → s.HasKind d v kind) :
    s.Judged d owner u (s.judgment d owner u) := by
  -- rewritten along with the goal, it tells in each branch that a node without kind is not typable
  have hnot : (s.judgment d owner u).kind = none → ¬ s.Typable d u := not_typable_of_kind
  rw [judgment, hsort] at hnot ⊢
  dsimp only at hnot ⊢
  by_cases hshort : (u.operands d).length < sort.wanted (u.operands d).length
  · have hlacks : u.Lacks d := ⟨sort, hsort, hshort⟩
    rw [judgeCall_of_lacks hshort]
    exact .blamed (.inl hlacks) (.lacks hlacks)
  have hpresent : ¬ u.Lacks d := by
    rintro ⟨sort', hsort', hshort'⟩
    obtain rfl := Option.some.inj (hsort.symm.trans hsort')
    exact hshort hshort'
  cases hkinds : (u.operands d).mapM (s.kind? d) with
  | none =>
    obtain ⟨v, hv, hnone⟩ := exists_of_mapM_eq_none hkinds
    rw [judgeCall_of_none hshort hkinds]
    refine .spared hpresent hv ?_
    rintro ⟨kind, hkind⟩
    rw [hkind.kind_eq] at hnone
    cases hnone
  | some kinds =>
    obtain ⟨hlength, hall⟩ := mapM_eq_some_iff.mp hkinds
    have htyped : ∀ p ∈ (u.operands d).zip kinds, s.HasKind d p.1 p.2 := fun p hp =>
      hoperands p.1 (List.of_mem_zip hp).1 p.2 (hall p hp)
    have htypable : ∀ v ∈ u.operands d, s.Typable d v := by
      intro v hv
      obtain ⟨kind, hkind⟩ := exists_of_mapM_eq_some hkinds hv
      exact ⟨kind, hoperands v hv kind hkind⟩
    rw [judgeCall_of_some hshort hkinds] at hnot ⊢
    cases hdeclared : s.catalog.callable? sort u.token.text with
    | none =>
      rw [hdeclared] at hnot
      exact .blamed (.inr ⟨hnot rfl, htypable⟩) (.undeclared hsort hpresent htypable hdeclared)
    | some c =>
      rw [hdeclared] at hnot
      dsimp only at hnot ⊢
      cases hchosen : s.choose c (argumentsWith (u.operands d) kinds) with
      | error refusal =>
        rw [hchosen] at hnot
        exact .blamed (.inr ⟨hnot rfl, htypable⟩)
          (.refused hsort hpresent hlength htyped hdeclared (choose_eq_iff_selects.mp hchosen))
      | ok choice =>
        exact .typed
          (.call hsort hpresent hlength htyped hdeclared (choose_eq_iff_selects.mp hchosen))

theorem hasKind_of_kind {kind : D.Kind} (h : s.kind? d u = some kind) : s.HasKind d u kind := by
  induction hn : u.size using Nat.strongRecOn generalizing u kind with
  | _ n ih =>
    have hjudged : s.Judged d none u (s.judgment d none u) := by
      cases hk : Term.callSort? u.kind with
      | none => exact judged_token hk
      | some sort =>
        -- operands are smaller trees, so what is said of them is right
        refine judged_call hk fun v hv kind hkind => ?_
        exact ih _ (hn ▸ Tree.size_lt_of_mem_operands hv) hkind rfl
    rw [← kind_judgment s d none] at h
    generalize s.judgment d none u = j at h hjudged
    cases hjudged with
    | typed hkind => exact Option.some.inj h ▸ hkind
    | blamed | spared => cases h

/-- A tree has a kind by the rules exactly if typing finds it. -/
theorem hasKind_iff {kind : D.Kind} : s.HasKind d u kind ↔ s.kind? d u = some kind :=
  ⟨HasKind.kind_eq, hasKind_of_kind⟩

/-- A judgment is right. -/
theorem judged (s : Typing D) (d : Dialect) (owner : Option Token) (u : Tree) :
    s.Judged d owner u (s.judgment d owner u) := by
  cases hk : Term.callSort? u.kind with
  | none => exact judged_token hk
  | some sort => exact judged_call hk fun _ _ _ => hasKind_of_kind

/-! ## Faults and blame -/

theorem Judged.faults {owner : Option Token} {j : Judgment D} (h : s.Judged d owner u j) :
    ¬ s.Blamed d u ∧ j.faults = [] ∨ s.Blamed d u ∧ ∃ f, s.Blames d owner u f ∧ j.faults = [f] := by
  cases h with
  | @typed kind overload h =>
    refine .inl ⟨?_, rfl⟩
    rintro (hlacks | ⟨hnot, -⟩)
    · exact h.not_lacks hlacks
    · exact hnot ⟨kind, h⟩
  | blamed hblamed h => exact .inr ⟨hblamed, _, h, rfl⟩
  | spared hpresent hv h =>
    refine .inl ⟨?_, rfl⟩
    rintro (hlacks | ⟨-, htypable⟩)
    · exact hpresent hlacks
    · exact h (htypable _ hv)

open Classical in
/-- The judgments of nodes tell one fault for each node that is to blame, in the order of nodes. -/
theorem forall₂_blames (s : Typing D) (d : Dialect) (t : Tree) (es : List Tree.Entry) :
    List.Forall₂ (fun e f => s.Blames d (e.owner t) e.tree f)
      (es.filter fun e => s.Blamed d e.tree)
      (es.flatMap fun e => (s.judgment d (e.owner t) e.tree).faults) := by
  induction es with
  | nil => exact .nil
  | cons e es ih =>
    rw [List.flatMap_cons]
    obtain ⟨hnot, hfaults⟩ | ⟨hblamed, f, hf, hfaults⟩ := (s.judged d (e.owner t) e.tree).faults
    · rw [hfaults, List.filter_cons_of_neg (by simpa using hnot)]
      exact ih
    · rw [hfaults, List.filter_cons_of_pos (by simpa using hblamed)]
      exact .cons hf ih

/-- Below a node without kind, some node that is read is to blame. -/
theorem exists_blamed {e : Tree.Entry} (h : ¬ s.Typable d e.tree) :
    ∃ o ∈ e.read d, s.Blamed d o.tree := by
  induction hn : e.tree.size using Nat.strongRecOn generalizing e with
  | _ n ih =>
    -- the node itself is to blame, or a node below an operand that has no kind
    by_cases hall : ∀ o ∈ e.operands d, s.Typable d o.tree
    · refine ⟨e, e.mem_read_self d, .inr ⟨h, fun v hv => ?_⟩⟩
      rw [← Tree.Entry.map_tree_operands] at hv
      obtain ⟨o, ho, rfl⟩ := List.mem_map.mp hv
      exact hall o ho
    · push Not at hall
      obtain ⟨o, ho, hnot⟩ := hall
      obtain ⟨b, hb, hblamed⟩ := ih _ (hn ▸ Tree.Entry.size_lt_of_mem_operands ho) hnot rfl
      refine ⟨b, ?_, hblamed⟩
      rw [Tree.Entry.read_eq]
      exact List.mem_append_left _ (List.mem_flatMap.mpr ⟨o, ho, hb⟩)

end Typing

end Reckon
