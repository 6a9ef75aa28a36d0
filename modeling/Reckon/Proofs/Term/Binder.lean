import Mathlib.Data.List.Induction
import Mathlib.Data.List.Sort
import Reckon.Proofs.Standard
import Reckon.Proofs.Term.Blame
import Reckon.Proofs.Term.Reachable

/-!
# Binding in a row follows the rules

`Arena.bind` looks at the nodes once, from front to back.  Whatever nodes are done, it knows their
kinds and has told the faults of their judgments (`Binder.Knows`), since operands are read before
the node that takes them.  So the pass gives the kind that the rules give, or else tells one fault
for each node that is to blame (`Arena.bind_exhaustive`).
-/

namespace Reckon

variable {D : Domain} {s : Typing D} {d : Dialect} {t : Tree} {e : Tree.Entry}
  {done : List Tree.Entry} {b : Binder D}

/-! ## One node after another -/

/-- What the call of a node is bound to, with the numbers of its operands. -/
def Typing.call? (s : Typing D) (d : Dialect) (e : Tree.Entry) : Option (Overload D × List Nat) :=
  (s.overload? d e.tree).map fun overload => (overload, (e.operands d).map (·.id))

namespace Binder

/-- What is known when some nodes are done. -/
structure Knows (s : Typing D) (d : Dialect) (t : Tree) (done : List Tree.Entry) (b : Binder D) :
    Prop where
  size : b.kinds.size = t.entries.length
  kinds : ∀ o ∈ done, b.kinds[o.id]? = some (s.kind? d o.tree)
  calls : ∀ o ∈ done, b.calls[o.id]? = some (s.call? d o)
  uncalled : ∀ o ∈ t.entries, o ∉ done → b.calls[o.id]? = some none
  faults : b.faults = done.flatMap fun o => (s.judgment d (o.owner t) o.tree).faults

theorem knows_start (s : Typing D) (d : Dialect) (t : Tree) :
    Knows s d t [] (start t.entries.length) := by
  refine ⟨Array.size_replicate .., nofun, nofun, fun o ho _ => ?_, rfl⟩
  rw [start, Array.getElem?_replicate, if_pos (Tree.id_lt_of_mem_entries ho)]

/-- A node whose operands are done is judged as the tree below it. -/
theorem Knows.judge_eq (h : Knows s d t done b) (he : e ∈ t.entries)
    (hoperands : ∀ o ∈ e.operands d, o ∈ done) :
    b.judge s d t.arena e.node e.id =
      b.enter e.id ((e.operands d).map (·.id)) (s.judgment d (e.owner t) e.tree) := by
  rw [judge, Arena.operands?_arena he, Typing.judgment]
  cases hk : Term.callSort? e.tree.kind with
  | none =>
    rw [Option.map_none, Arena.owner_arena he, Tree.Entry.operands_of_callSort?_none hk]
    rfl
  | some sort =>
    have hseen : ((e.operands d).map (·.id)).map (fun operand =>
        (b.kinds[operand]?.join, t.arena.argumentText? operand)) =
        s.operandsSeen d (e.tree.operands d) := by
      rw [Typing.operandsSeen, ← Tree.Entry.map_tree_operands, List.map_map, List.map_map]
      refine List.map_congr_left fun o ho => ?_
      obtain ⟨hmem, -⟩ := Tree.Entry.mem_entries_of_mem_operands he ho
      simp only [Function.comp_apply, h.kinds o (hoperands o ho), Arena.argumentText?_arena hmem,
        Option.join_some]
    rw [Option.map_some]
    dsimp only
    rw [hseen]
    rfl

/-- A node that is new is entered in its own slots, and only there. -/
theorem Knows.enter_eq (h : Knows s d t done b) (he : e ∈ t.entries) (hnew : e ∉ done)
    (owner : Option Token) (i : Nat) :
    (b.enter e.id ((e.operands d).map (·.id)) (s.judgment d owner e.tree)).kinds[i]? =
        (if e.id = i then some (s.kind? d e.tree) else b.kinds[i]?) ∧
      (b.enter e.id ((e.operands d).map (·.id)) (s.judgment d owner e.tree)).calls[i]? =
        if e.id = i then some (s.call? d e) else b.calls[i]? := by
  have hslot := h.uncalled e he hnew
  have hlt := (Array.getElem?_eq_some_iff.mp hslot).1
  rw [enter, Typing.kind_judgment, Typing.overload_judgment, Typing.call?]
  refine ⟨?_, ?_⟩
  · rw [Array.getElem?_setIfInBounds, h.size, if_pos (Tree.id_lt_of_mem_entries he)]
  · cases s.overload? d e.tree with
    | some overload => exact Array.getElem?_setIfInBounds.trans (by rw [if_pos hlt]; rfl)
    | none =>
      by_cases hid : e.id = i
      · rw [if_pos hid, ← hid]
        exact hslot
      · rw [if_neg hid]

theorem Knows.judge (h : Knows s d t done b) (he : e ∈ t.entries) (hnew : e ∉ done)
    (hdone : ∀ o ∈ done, o ∈ t.entries) (hoperands : ∀ o ∈ e.operands d, o ∈ done) :
    Knows s d t (done ++ [e]) (b.judge s d t.arena e.node e.id) := by
  have hdone : ∀ o ∈ done, e.id ≠ o.id := fun o ho hid =>
    hnew (Tree.eq_of_id_eq he (hdone o ho) hid ▸ ho)
  rw [h.judge_eq he hoperands]
  have henter := h.enter_eq he hnew (e.owner t)
  refine ⟨?_, fun o ho => ?_, fun o ho => ?_, fun o ho hnot => ?_, ?_⟩
  · rw [enter, Array.size_setIfInBounds, h.size]
  · rw [(henter o.id).1]
    rcases List.mem_append.mp ho with ho | ho
    · rw [if_neg (hdone o ho), h.kinds o ho]
    · rw [List.mem_singleton.mp ho, if_pos rfl]
  · rw [(henter o.id).2]
    rcases List.mem_append.mp ho with ho | ho
    · rw [if_neg (hdone o ho), h.calls o ho]
    · rw [List.mem_singleton.mp ho, if_pos rfl]
  · rw [List.mem_append, List.mem_singleton, not_or] at hnot
    have hother : e.id ≠ o.id := fun hid => hnot.2 (Tree.eq_of_id_eq he ho hid).symm
    rw [(henter o.id).2, if_neg hother, h.uncalled o ho hnot.1]
  · rw [enter, h.faults, List.flatMap_append, List.flatMap_singleton]

/-! ## The whole pass -/

theorem operand_done (h : done ++ [e] <+: t.rootEntry.read d) {o : Tree.Entry}
    (ho : o ∈ e.operands d) : o ∈ done := by
  obtain ⟨back, hback⟩ := h
  have he : e ∈ t.rootEntry.read d := by simp [← hback]
  have hsublist := t.read_sublist_entries d
  obtain ⟨-, hlt⟩ := Tree.Entry.mem_entries_of_mem_operands (hsublist.subset he) ho
  have hmem : o ∈ t.rootEntry.read d :=
    Tree.mem_read_iff_reached.mpr ((Tree.mem_read_iff_reached.mp he).operand ho)
  have hsorted := t.pairwise_id_entries.sublist hsublist
  rw [← hback, List.append_assoc] at hmem hsorted
  rcases List.mem_append.mp hmem with hmem | hmem
  · exact hmem
  -- what stands at the node or behind it has no smaller number
  · rcases List.mem_cons.mp hmem with rfl | hmem
    · exact absurd hlt (Nat.lt_irrefl _)
    · have hafter := (List.pairwise_append.mp hsorted).2.1
      exact absurd hlt (Nat.lt_asymm ((List.pairwise_cons.mp hafter).1 o hmem))

theorem notMem_done (h : done ++ [e] <+: t.rootEntry.read d) : e ∉ done := by
  intro he
  have hsorted := t.pairwise_id_entries.sublist (h.sublist.trans (t.read_sublist_entries d))
  have hlt := (List.pairwise_append.mp hsorted).2.2 e he e (List.mem_singleton_self e)
  exact absurd hlt (Nat.lt_irrefl _)

theorem knows_foldl (h : done <+: t.rootEntry.read d) :
    Knows s d t done (done.foldl (fun b e => b.judge s d t.arena e.node e.id)
      (start t.entries.length)) := by
  induction done using List.reverseRecOn with
  | nil => exact knows_start s d t
  | append_singleton done e ih =>
    have hentries : ∀ o ∈ done ++ [e], o ∈ t.entries := fun o ho =>
      (t.read_sublist_entries d).subset (h.subset ho)
    rw [List.foldl_concat]
    refine (ih ((List.prefix_append done [e]).trans h)).judge (hentries e (by simp))
      (notMem_done h) ?_ ?_
    · exact fun o ho => hentries o (List.mem_append_left _ ho)
    · exact fun o ho => operand_done h ho

/-- The nodes that are marked are the nodes that are read, in their order. -/
theorem filter_reachable (d : Dialect) (t : Tree) :
    t.entries.filter (fun e => (t.arena.reachable d)[e.id]? = some true) = t.rootEntry.read d := by
  have hirrefl : Std.Irrefl fun a b : Tree.Entry => a.id < b.id := ⟨fun _ => Nat.lt_irrefl _⟩
  have hantisymm : Std.Antisymm fun a b : Tree.Entry => a.id < b.id :=
    ⟨fun _ _ h h' => absurd h' (Nat.lt_asymm h)⟩
  have hsublist := t.read_sublist_entries d
  refine (t.pairwise_id_entries.sublist List.filter_sublist).eq_of_mem_iff
    (t.pairwise_id_entries.sublist hsublist) fun e => ?_
  rw [List.mem_filter, decide_eq_true_iff]
  constructor
  · rintro ⟨he, hmark⟩
    exact (Arena.reachable_arena he).mp hmark
  · intro h
    have he := hsublist.subset h
    exact ⟨he, (Arena.reachable_arena he).mpr h⟩

/-- The pass judges the nodes that are read. -/
theorem run_eq_foldl (s : Typing D) (d : Dialect) (t : Tree) :
    run s d t.arena (t.arena.reachable d) =
      (t.rootEntry.read d).foldl (fun b e => b.judge s d t.arena e.node e.id)
        (start t.entries.length) := by
  rw [← filter_reachable, List.foldl_filter, run, Arena.toList_nodes_arena, Arena.size_nodes_arena,
    Arena.zipIdx_entries, List.foldl_map]
  simp only [decide_eq_true_iff]

theorem knows_run (s : Typing D) (d : Dialect) (t : Tree) :
    Knows s d t (t.rootEntry.read d) (run s d t.arena (t.arena.reachable d)) := by
  rw [run_eq_foldl]
  exact knows_foldl (List.prefix_refl _)

end Binder

/-! ## What is told -/

namespace Typing

/-- The diagnostics are told about these nodes: those that are read and to blame, in postorder, and
one diagnostic about each. -/
structure Reports (s : Typing D) (d : Dialect) (t : Tree) (blamed : List Tree.Entry)
    (ds : List Diagnostic) : Prop where
  ordered : blamed.Pairwise fun a b => a.id < b.id
  mem_iff : ∀ e, e ∈ blamed ↔ Tree.Reached d t e ∧ s.Blamed d e.tree
  told : List.Forall₂ (fun e g => ∃ f, s.Blames d (e.owner t) e.tree f ∧ f.diagnostic = g) blamed ds

theorem exists_reports (s : Typing D) (d : Dialect) (t : Tree) :
    ∃ blamed, s.Reports d t blamed ((faults (s.bind (Term.ofTree d t))).map (·.diagnostic)) := by
  classical
  have hfaults : faults (s.bind (Term.ofTree d t)) = _ := faults_eq_flatMap t.rootEntry_mem_entries
  refine ⟨(t.rootEntry.read d).filter fun e => s.Blamed d e.tree, ?_, fun e => ?_, ?_⟩
  · exact t.pairwise_id_entries.sublist (List.filter_sublist.trans (t.read_sublist_entries d))
  · rw [List.mem_filter, decide_eq_true_iff, Tree.mem_read_iff_reached]
  · rw [hfaults, List.forall₂_map_right_iff]
    exact (s.forall₂_blames d t _).imp fun e f hf => ⟨f, hf, rfl⟩

/-- A tree without kind has a node that is to blame. -/
theorem Reports.ne_nil {blamed : List Tree.Entry} {ds : List Diagnostic}
    (h : s.Reports d t blamed ds) (hnot : ¬ s.Typable d t) : blamed ≠ [] := by
  obtain ⟨o, ho, hblamed⟩ := exists_blamed (e := t.rootEntry) hnot
  exact List.ne_nil_of_mem ((h.mem_iff o).mpr ⟨Tree.mem_read_iff_reached.mp ho, hblamed⟩)

end Typing

/-- What the pass would say of a tree that has neither a kind nor a fault is no fault of typing. -/
theorem TypeFault.diagnostic_ne (f : TypeFault) :
    f.diagnostic ≠ .plain "expression has no type" := by
  intro h
  have hcode := congrArg (·.code) h
  rw [TypeFault.code_diagnostic] at hcode
  cases f with
  | alien token =>
    have hmessage : s!"unexpected `{token.text}` in expression tree" = "expression has no type" :=
      (Diagnostic.message_pointing ..).symm.trans (congrArg (·.message) h)
    have hfirst := congrArg (fun m : String => m.toList.head?) hmessage
    simp only [String.toList_append, List.append_assoc] at hfirst
    cases hfirst
  | _ => cases hcode

namespace Arena

/-- The pass succeeds where the typing of the term does, with the same kind, and fails where it
does, with the same faults. -/
theorem bind_arena_cases (s : Typing D) (d : Dialect) (t : Tree) :
    (∃ b binding, s.bind (Term.ofTree d t) = .ok b ∧ t.arena.bind s d = .ok binding ∧
      binding.rootKind = b.kind) ∨
    ∃ faults, s.bind (Term.ofTree d t) = .error faults ∧
      t.arena.bind s d = .error (faults.map (·.diagnostic)) ∧ ¬ s.Typable d t := by
  have hknows := Binder.knows_run s d t
  have hfaults : (Binder.run s d t.arena (t.arena.reachable d)).faults =
      Typing.faults (s.bind (Term.ofTree d t)) :=
    hknows.faults.trans (Typing.faults_eq_flatMap t.rootEntry_mem_entries).symm
  have hkind : (Binder.run s d t.arena (t.arena.reachable d)).kinds[t.arena.root]?.join =
      s.kind? d t :=
    congrArg Option.join (hknows.kinds t.rootEntry (t.rootEntry.mem_read_self d))
  have herrors : ∀ g ∈ (Typing.faults (s.bind (Term.ofTree d t))).map (·.diagnostic),
      g.isError := by
    intro g hg
    obtain ⟨f, -, rfl⟩ := List.mem_map.mp hg
    exact f.isError_diagnostic
  rw [Arena.bind, hfaults, hkind, Diagnostic.settle_of_isError herrors, Typing.kind?]
  cases hbind : s.bind (Term.ofTree d t) with
  | ok b => exact .inl ⟨b, _, rfl, rfl, rfl⟩
  | error faults =>
    have hnot : ¬ s.Typable d t := by
      rintro ⟨kind, hof⟩
      have hof := hof.kind_eq
      rw [Typing.kind?, hbind] at hof
      cases hof
    have hne : faults.map (·.diagnostic) ≠ [] := by
      obtain ⟨blamed, hreports⟩ := s.exists_reports d t
      have hlength := hreports.told.length_eq
      rw [hbind] at hlength
      intro hnil
      rw [Typing.faults, hnil] at hlength
      exact hreports.ne_nil hnot (List.length_eq_zero_iff.mp hlength)
    refine .inr ⟨faults, rfl, ?_, hnot⟩
    rw [if_neg (by exact hne)]
    rfl

/-- Binding a tree that is built follows the rules.  It succeeds exactly with the kind that they
give.  Otherwise it tells, in postorder, one diagnostic about each node that the root reaches and
that is to blame; there is one such node at least, and binding never lacks something to tell.  The
typing of the term comes to the same. -/
theorem bind_exhaustive {ts : List Token} {a : Arena} (h : ofPolish ts = .ok a) (s : Typing D)
    (d : Dialect) : ∃ t, Tree.ofPolish ts = .ok t ∧ a = t.arena ∧
      (∀ kind, (∃ b, a.bind s d = .ok b ∧ b.rootKind = kind) ↔ s.HasKind d t kind) ∧
      (∀ ds, a.bind s d = .error ds → .plain "expression has no type" ∉ ds ∧
        ∃ blamed, blamed ≠ [] ∧ s.Reports d t blamed ds) ∧
      (a.bind s d).map (·.rootKind) =
        ((s.bind (Term.ofTree d t)).map (·.kind)).mapError (List.map (·.diagnostic)) := by
  obtain ⟨t, ht, rfl⟩ := exists_tree_of_ofPolish h
  refine ⟨t, ht, rfl, ?_⟩
  obtain ⟨b, binding, hbind, hbinding, hroot⟩ | ⟨faults, hbind, hbinding, hnot⟩ :=
    bind_arena_cases s d t
  · refine ⟨fun kind => ?_, fun ds hds => ?_, ?_⟩
    · rw [Typing.hasKind_iff, Typing.kind?, hbind, hbinding]
      simp [hroot, Except.toOption]
    · rw [hbinding] at hds
      cases hds
    · rw [hbind, hbinding]
      exact congrArg Except.ok hroot
  · refine ⟨fun kind => ?_, fun ds hds => ?_, ?_⟩
    · constructor
      · rintro ⟨b, hb, -⟩
        rw [hbinding] at hb
        cases hb
      · exact fun hkind => absurd ⟨kind, hkind⟩ hnot
    · rw [hbinding] at hds
      obtain rfl := Except.error.inj hds
      obtain ⟨blamed, hreports⟩ := s.exists_reports d t
      rw [hbind] at hreports
      refine ⟨fun hmem => ?_, blamed, hreports.ne_nil hnot, hreports⟩
      obtain ⟨f, -, hf⟩ := List.mem_map.mp hmem
      exact f.diagnostic_ne hf
    · rw [hbind, hbinding]
      rfl

/-- The expression `(y + 1x) - (2 / x)` in reverse Polish order. -/
def muddle : List Token :=
  [⟨.identifier, "y", some 1⟩, ⟨.literal, "1x", some 5⟩, ⟨.operator, "+", some 3⟩,
    ⟨.literal, "2", some 12⟩, ⟨.identifier, "x", some 16⟩, ⟨.operator, "/", some 14⟩,
    ⟨.operator, "-", some 9⟩]

/-- The expression `2 + x` in reverse Polish order. -/
def plainSum : List Token :=
  [⟨.literal, "2", some 0⟩, ⟨.identifier, "x", some 4⟩, ⟨.operator, "+", some 2⟩]

/-- Where only sums are declared, three of the seven nodes of the first expression are to blame: the
sum and the difference are spared for their operands.  The second expression has a kind. -/
theorem bind_exhaustive_of_muddle :
    (∃ a ds t blamed, ofPolish muddle = .ok a ∧
      a.bind (Scalar.sumTyping Scalar.three) .standard = .error ds ∧
      ds.map (·.code) = [some .unboundVariable, some .invalidLiteral, some .undeclaredCallable] ∧
      Tree.ofPolish muddle = .ok t ∧
      (Scalar.sumTyping Scalar.three).Reports .standard t blamed ds) ∧
    ∃ t, Tree.ofPolish plainSum = .ok t ∧
      (Scalar.sumTyping Scalar.three).HasKind .standard t ScalarKind.int := by
  have hmuddle : ∃ a ds, ofPolish muddle = .ok a ∧
      a.bind (Scalar.sumTyping Scalar.three) .standard = .error ds ∧
      ds.map (·.code) =
        [some .unboundVariable, some .invalidLiteral, some .undeclaredCallable] :=
    ⟨_, _, rfl, rfl, rfl⟩
  have hsum : ∃ a b, ofPolish plainSum = .ok a ∧
      a.bind (Scalar.sumTyping Scalar.three) .standard = .ok b ∧ b.rootKind = ScalarKind.int :=
    ⟨_, _, rfl, rfl, rfl⟩
  obtain ⟨a, ds, ha, hds, hcodes⟩ := hmuddle
  obtain ⟨a', b, ha', hb, hkind⟩ := hsum
  obtain ⟨t, ht, -, -, hreports, -⟩ := bind_exhaustive ha (Scalar.sumTyping Scalar.three) .standard
  obtain ⟨t', ht', -, hkinds, -, -⟩ :=
    bind_exhaustive ha' (Scalar.sumTyping Scalar.three) .standard
  obtain ⟨-, blamed, -, hblamed⟩ := hreports ds hds
  exact ⟨⟨a, ds, t, blamed, ha, hds, hcodes, ht, hblamed⟩, t', ht',
    (hkinds ScalarKind.int).mp ⟨b, hb, hkind⟩⟩

end Arena

end Reckon
