import Mathlib
import LinkAsm.Proofs.Graph
import LinkAsm.Proofs.Pass.WorkList

/-!
# Errors about cycles

The aliases of an object are a graph: an edge leads from an alias to each alias that its expression
refers to.  No evaluation ends with an error about a cycle, so such an error is that of an alias which
was still parked when the queue was empty, and the name in it is that of another one.  Whoever follows
these names stays among the parked aliases and comes to a cycle.

For the other direction every step keeps that a value which is not deferred belongs to an alias that
leads to no cycle: such an outcome needs the values of all aliases it refers to, and none of these is
deferred.

* `Definitions.Refers`, `Definitions.LeadsToCycle`: the graph, and what leads to a cycle in it.
* `Site.onCycle_iff`: errors about cycles are those of the parked aliases.
* `Site.judged_doneList`: values that are not deferred are found outside of cycles only.
* `Site.cycleErrors_exact`: which aliases have an error about a cycle.
-/

namespace LinkAsm

open Relation

/-! ## Outcomes are no errors about cycles -/

/-- Whether an outcome is an error about a cycle. -/
def AliasValue.isCycleError : AliasValue → Bool
  | .error ⟨_, .dependencyCycle _⟩ => true
  | _ => false

namespace AliasValue

theorem isCycleError_shift (v : AliasValue) (n : Nat) :
    (v.shift n).isCycleError = v.isCycleError := by
  cases v with
  | error e => cases e with | mk span kind => cases kind <;> rfl
  | _ => rfl

theorem OfLeaf.isCycleError_eq {span : Span} {v : AliasValue} (h : v.OfLeaf span) :
    v.isCycleError = false := by
  cases h with
  | computed h => cases h <;> rfl
  | _ => rfl

theorem isCycleError_combine {op : Operator} {span : Span} {l r : AliasValue}
    (hl : l.isCycleError = false) (hr : r.isCycleError = false) :
    (combine op span l r).isCycleError = false := by
  rcases combine_cases op span l r with hleft | hright | hcomputed
  · rwa [hleft]
  · rwa [hright]
  · exact (OfLeaf.computed hcomputed).isCycleError_eq

theorem isCycleError_castAs {v : AliasValue} (cast : Option (Span × Cast))
    (h : v.isCycleError = false) : (v.castAs cast).isCycleError = false := by
  rcases castAs_cases v cast with heq | ⟨span, target, -, hcomputed⟩
  · rwa [heq]
  · exact (OfLeaf.computed hcomputed).isCycleError_eq

end AliasValue

namespace Site

variable {a : AliasScope}

/-- **No evaluation ends with an error about a cycle.** -/
theorem isCycleError_evaluate (s : Site) (position : Nat) (e : Expr) :
    (s.evaluate a position e).1.isCycleError = false := by
  rw [evaluate_eq]
  refine AliasValue.isCycleError_castAs _ ?_
  induction e.tree with
  | leaf span operand => exact (s.ofLeaf_evaluateOperand a position span operand).isCycleError_eq
  | binary span op left right ihl ihr => exact AliasValue.isCycleError_combine ihl ihr

end Site

/-! ## What a definite outcome needs -/

/-- Whether an expression is cast to a name that is no cast. -/
def Expr.UnknownCast (e : Expr) : Prop := ∃ span name, e.cast = some (span, .unknown name)

namespace AliasValue

theorem Settled.eq_deferred_or_definite {v : AliasValue} (h : v.Settled) :
    v = .deferred ∨ v.Definite := by
  cases v with
  | dependsOn name => exact absurd rfl (h name)
  | deferred => exact Or.inl rfl
  | _ => exact Or.inr trivial

/-- A definite operator has definite sides. -/
theorem definite_of_combine {op : Operator} {span : Span} {l r : AliasValue}
    (h : (combine op span l r).Definite) : l.Definite ∧ r.Definite := by
  cases l <;> cases r <;> simp_all [combine, Definite]

/-- A definite expression has a definite tree, if its cast is one. -/
theorem definite_of_castAs {v : AliasValue} {cast : Option (Span × Cast)}
    (hcast : ∀ span name, cast ≠ some (span, .unknown name)) (h : (v.castAs cast).Definite) :
    v.Definite := by
  cases cast with
  | none => exact h
  | some c =>
    obtain ⟨span, cast⟩ := c
    cases cast with
    | unknown name => exact absurd rfl (hcast span name)
    | _ =>
      cases v with
      | word w => trivial
      | _ => exact h

end AliasValue

/-- An alias with a definite outcome has a value, and one that is not deferred. -/
theorem AliasScope.exists_value_of_definite {a : AliasScope} {span : Span} {name : String}
    (hdeclared : name ∈ a.declared) (h : (a.lookup span name).Definite) :
    ∃ v, a.values.find? name = some v ∧ v ≠ .deferred := by
  unfold lookup at h
  cases hv : a.values.find? name with
  | none =>
    simp only [hv, hdeclared, if_true] at h
    exact h.elim
  | some v =>
    refine ⟨v, rfl, ?_⟩
    rintro rfl
    simp only [hv] at h
    exact h

namespace Site

variable {a : AliasScope}

theorem definite_leaf_of_evaluateTree (s : Site) {position : Nat} {tree : Tree}
    (h : (s.evaluateTree a position tree).1.Definite) {leaf : Span × Operand}
    (hleaf : leaf ∈ tree.leaves) : (s.evaluateOperand a position leaf.1 leaf.2).1.Definite := by
  induction tree with
  | leaf span operand =>
    obtain rfl := List.mem_singleton.mp hleaf
    exact h
  | binary span op left right ihl ihr =>
    obtain ⟨hl, hr⟩ := AliasValue.definite_of_combine h
    rcases List.mem_append.mp hleaf with hmem | hmem
    · exact ihl hl hmem
    · exact ihr hr hmem

/-- A definite outcome needs definite operands, if the cast is one. -/
theorem definite_leaf_of_evaluate (s : Site) {position : Nat} {e : Expr} (hcast : ¬e.UnknownCast)
    (h : (s.evaluate a position e).1.Definite) {leaf : Span × Operand}
    (hleaf : leaf ∈ e.tree.leaves) : (s.evaluateOperand a position leaf.1 leaf.2).1.Definite := by
  rw [evaluate_eq] at h
  refine s.definite_leaf_of_evaluateTree (AliasValue.definite_of_castAs ?_ h) hleaf
  intro span name heq
  exact hcast ⟨span, name, heq⟩

theorem not_unknownCast_of_evaluate (s : Site) {position : Nat} {e : Expr}
    (h : ¬(s.evaluate a position e).1.Definite) : ¬e.UnknownCast := by
  rintro ⟨span, name, hcast⟩
  rw [evaluate_eq, hcast] at h
  exact h trivial

end Site

/-! ## The graph of an object's aliases -/

namespace Definitions

/-- Whether an alias refers to another in its expression.  One that is cast to a name that is no cast
is not evaluated, and refers to none. -/
def Refers (d : Definitions) (a b : String) : Prop :=
  ∃ p ∈ d.pending, p.name = a ∧ ¬p.expr.UnknownCast ∧ WorkList.Names p b ∧ b ∈ d.declared

/-- Whether an alias leads to a cycle. -/
def LeadsToCycle (d : Definitions) (name : String) : Prop :=
  ∃ c, ReflTransGen d.Refers name c ∧ TransGen d.Refers c c

theorem LeadsToCycle.exists_refers {d : Definitions} {name : String} (h : d.LeadsToCycle name) :
    ∃ b, d.Refers name b ∧ d.LeadsToCycle b := by
  obtain ⟨c, hpath, hcycle⟩ := h
  rcases ReflTransGen.cases_head hpath with rfl | ⟨b, hedge, hrest⟩
  · obtain ⟨b, hedge, hback⟩ := TransGen.head'_iff.mp hcycle
    exact ⟨b, hedge, name, hback, hcycle⟩
  · exact ⟨b, hedge, c, hrest, hcycle⟩

theorem malformed_addLine (s : Site) (d : Definitions) (line : Line) :
    (d.addLine s line).malformed = d.malformed ∨ ∃ name span reason,
      (d.addLine s line).malformed = d.malformed.insert name (.error ⟨span, .malformed reason⟩) := by
  unfold addLine
  cases line.kind with
  | label name =>
    simp only [addLabel]
    split <;> exact Or.inl rfl
  | block name =>
    simp only [addBlock]
    split <;> exact Or.inl rfl
  | aliasDefinition a =>
    simp only [addAlias]
    split
    · exact Or.inl rfl
    · split
      · exact Or.inl rfl
      · exact Or.inr ⟨_, _, _, rfl⟩
  | importing i =>
    simp only [addImport]
    split
    · split <;> exact Or.inl rfl
    · exact Or.inl rfl
  | instruction i => exact Or.inl rfl

/-- An alias that cannot be read has no error about a cycle. -/
theorem isCycleError_malformed (s : Site) {name : String} {v : AliasValue}
    (h : (ofLines s).malformed.find? name = some v) : v.isCycleError = false := by
  unfold ofLines at h
  generalize s.source.lines = lines at h
  induction lines using List.reverseRecOn with
  | nil => cases h
  | append_singleton lines line ih =>
    rw [List.foldl_concat] at h
    rcases malformed_addLine s _ line with heq | ⟨key, span, reason, heq⟩
    · rw [heq] at h
      exact ih h
    · rw [heq] at h
      rcases NameMap.find?_insert_cases h with hold | ⟨rfl, -⟩
      · exact ih hold
      · rfl

end Definitions

/-! ## What steps keep -/

/-- What is kept while aliases are evaluated: no value is an error about a cycle, those parked refer
to others, and a value that is not deferred is that of an alias which leads to no cycle. -/
structure WorkList.Judged (d : Definitions) (w : WorkList) : Prop where
  castable : ∀ q ∈ w.parked, ¬q.waiting.expr.UnknownCast
  clean : ∀ name v, w.values.find? name = some v → v.isCycleError = false
  free : ∀ name v, w.values.find? name = some v → v = .deferred ∨ ¬d.LeadsToCycle name

namespace Site

/-- A definite outcome under values that are judged is that of an alias which leads to no cycle. -/
theorem not_leadsToCycle_of_definite (s : Site) {w : WorkList}
    (h : w.Judged (Definitions.ofLines s)) {p : PendingAlias}
    (hp : p ∈ (Definitions.ofLines s).pending)
    (hdefinite : (s.outcome (Definitions.ofLines s).declared w.values p).1.Definite) :
    ¬(Definitions.ofLines s).LeadsToCycle p.name := by
  intro hlead
  obtain ⟨b, ⟨p', hp', hname, hcast, ⟨span, hleaf⟩, hdeclared⟩, hb⟩ := hlead.exists_refers
  have hnodup := (List.nodup_append.mp (Definitions.aliasesDeclared_ofLines s).nodup).1
  obtain rfl : p' = p := List.inj_on_of_nodup_map hnodup hp' hp hname
  have hlookup : (AliasScope.lookup ⟨w.values, _⟩ span b).Definite :=
    s.definite_leaf_of_evaluate hcast hdefinite hleaf
  obtain ⟨v, hv, hne⟩ := AliasScope.exists_value_of_definite hdeclared hlookup
  exact (h.free b v hv).resolve_left hne hb

theorem judged_step (s : Site) {w w' : WorkList}
    (hstep : WorkList.Step (s.outcome (Definitions.ofLines s).declared) w w')
    (hmem : ∀ p ∈ w.waiting, p ∈ (Definitions.ofLines s).pending)
    (h : w.Judged (Definitions.ofLines s)) : w'.Judged (Definitions.ofLines s) := by
  cases hstep with
  | @park p rest dependency hq hv =>
    refine ⟨?_, h.clean, h.free⟩
    intro q hqmem
    rcases List.mem_append.mp hqmem with hold | hnew
    · exact h.castable q hold
    · obtain rfl := List.mem_singleton.mp hnew
      exact s.not_unknownCast_of_evaluate fun hdefinite => hdefinite.ne_dependsOn hv
  | @finish p rest hq hv =>
    have hp : p ∈ (Definitions.ofLines s).pending := by
      refine hmem p (List.mem_append_left _ ?_)
      rw [hq]
      exact List.mem_cons_self
    refine ⟨?_, ?_, ?_⟩
    · intro q hqmem
      exact h.castable q (List.mem_filter.mp hqmem).1
    · intro name v hfound
      rcases NameMap.find?_insert_cases hfound with hold | ⟨rfl, -⟩
      · exact h.clean name v hold
      · rw [AliasValue.isCycleError_shift]
        exact s.isCycleError_evaluate _ _
    · intro name v hfound
      rcases NameMap.find?_insert_cases hfound with hold | ⟨rfl, rfl⟩
      · exact h.free name v hold
      · rcases hv.eq_deferred_or_definite with hdeferred | hdefinite
        · rw [hdeferred]
          exact Or.inl rfl
        · exact Or.inr (s.not_leadsToCycle_of_definite h hp hdefinite)

/-- **Values that are not deferred are found outside of cycles only.** -/
theorem judged_doneList (s : Site) : s.doneList.Judged (Definitions.ofLines s) := by
  have hdeclared := Definitions.aliasesDeclared_ofLines s
  refine (WorkList.invariant_run (P := fun w =>
    (∀ p ∈ w.waiting, p ∈ (Definitions.ofLines s).pending) ∧ w.Judged (Definitions.ofLines s))
    ?_ ⟨?_, ?_, ?_, ?_⟩).2
  · rintro w w' hstep ⟨hmem, h⟩
    exact ⟨fun p hp => hmem p (hstep.mem_waiting hp), s.judged_step hstep hmem h⟩
  · intro p hp
    simpa [WorkList.waiting] using hp
  · intro q hq
    cases hq
  · intro name v hv
    exact Definitions.isCycleError_malformed s hv
  · -- an alias that cannot be read refers to none
    intro name v hv
    refine Or.inr fun hlead => ?_
    obtain ⟨b, ⟨p, hp, rfl, -⟩, -⟩ := hlead.exists_refers
    exact (List.nodup_append.mp hdeclared.nodup).2.2 _ (List.mem_map_of_mem hp) _
      (NameMap.mem_keys_iff.mpr ⟨v, hv⟩) rfl

/-! ## Errors about cycles -/

/-- Errors about cycles are those of the parked aliases. -/
theorem onCycle_iff (s : Site) {name dependency : String} :
    WorkList.OnCycle s.aliases.1 name dependency ↔
      ∃ q ∈ s.doneList.parked, q.waiting.name = name ∧ q.dependency = dependency := by
  constructor
  · rintro ⟨span, hv⟩
    rcases s.find?_aliases.mp hv with ⟨q, hq, hname, herror⟩ | hold
    · refine ⟨q, hq, hname, ?_⟩
      simp only [WorkList.stuckError, AliasValue.error.injEq, AliasError.mk.injEq,
        AliasErrorKind.dependencyCycle.injEq] at herror
      exact herror.2
    · exact Bool.noConfusion (s.judged_doneList.clean name _ hold)
  · rintro ⟨q, hq, rfl, rfl⟩
    exact ⟨_, s.find?_aliases.mpr (Or.inl ⟨q, hq, rfl, rfl⟩)⟩

/-- The name in an error about a cycle is that of an alias which is referred to and has such an error
too. -/
theorem refers_of_onCycle (s : Site) {name dependency : String}
    (h : WorkList.OnCycle s.aliases.1 name dependency) :
    (Definitions.ofLines s).Refers name dependency ∧
      ∃ next, WorkList.OnCycle s.aliases.1 dependency next := by
  have hdone := s.accounted_doneList
  obtain ⟨q, hq, rfl, rfl⟩ := s.onCycle_iff.mp h
  have hpending : q.waiting ∈ (Definitions.ofLines s).pending :=
    hdone.waiting_mem _ (List.mem_append_right _ (List.mem_map_of_mem hq))
  obtain ⟨hnames, hdeclared, -⟩ := hdone.parked q hq
  obtain ⟨r, hr, hname⟩ := hdone.exists_parked s.queue_doneList hq
  refine ⟨⟨q.waiting, hpending, rfl, s.judged_doneList.castable q hq, hnames, hdeclared⟩, ?_⟩
  exact ⟨r.dependency, s.onCycle_iff.mpr ⟨r, hr, hname, rfl⟩⟩

/-- Whoever follows the names in errors about cycles comes to a cycle of them. -/
theorem exists_cycle_of_onCycle (s : Site) {name dependency : String}
    (h : WorkList.OnCycle s.aliases.1 name dependency) :
    ∃ c, ReflTransGen (WorkList.OnCycle s.aliases.1) name c ∧
      TransGen (WorkList.OnCycle s.aliases.1) c c := by
  have hnext : ∀ x ∈ s.doneList.parked.map (·.waiting.name), ∃ y,
      WorkList.OnCycle s.aliases.1 x y ∧
        (y ∈ s.doneList.parked.map (·.waiting.name) ∨ False) := by
    intro x hx
    obtain ⟨q, hq, rfl⟩ := List.mem_map.mp hx
    obtain ⟨r, hr, hname⟩ := s.accounted_doneList.exists_parked s.queue_doneList hq
    exact ⟨q.dependency, s.onCycle_iff.mpr ⟨q, hq, rfl, rfl⟩, Or.inl (List.mem_map.mpr ⟨r, hr, hname⟩)⟩
  obtain ⟨q, hq, rfl, -⟩ := s.onCycle_iff.mp h
  obtain ⟨c, hpath, hcycle | hfalse⟩ :=
    exists_cycle_or_of_forall_exists hnext (List.mem_map_of_mem hq)
  · exact ⟨c, hpath, hcycle⟩
  · exact hfalse.elim

/-- What has an error about a cycle leads to one. -/
theorem leadsToCycle_of_onCycle (s : Site) {name dependency : String}
    (h : WorkList.OnCycle s.aliases.1 name dependency) :
    (Definitions.ofLines s).LeadsToCycle name := by
  have hrefers : ∀ a b, WorkList.OnCycle s.aliases.1 a b → (Definitions.ofLines s).Refers a b :=
    fun a b hab => (s.refers_of_onCycle hab).1
  obtain ⟨c, hpath, hcycle⟩ := s.exists_cycle_of_onCycle h
  exact ⟨c, ReflTransGen.mono hrefers _ _ hpath, TransGen.mono hrefers _ _ hcycle⟩

/-- Whether no operand of an alias that refers to others is deferred. -/
def Undeferred (s : Site) : Prop :=
  ∀ p ∈ (Definitions.ofLines s).pending, (∃ b, (Definitions.ofLines s).Refers p.name b) →
    ∀ leaf ∈ p.expr.tree.leaves,
      (s.evaluateOperand ⟨s.aliases.1, (Definitions.ofLines s).declared⟩ p.position
        leaf.1 leaf.2).1 ≠ .deferred

/-- Where nothing is deferred, what leads to a cycle has an error about it. -/
theorem onCycle_of_leadsToCycle (s : Site) (hs : s.Undeferred) {name : String}
    (h : (Definitions.ofLines s).LeadsToCycle name) :
    ∃ dependency, WorkList.OnCycle s.aliases.1 name dependency := by
  obtain ⟨b, hedge, -⟩ := h.exists_refers
  obtain ⟨p, hp, rfl, -⟩ := id hedge
  rcases s.sound_aliases hp with ⟨dependency, hcycle, -⟩ | hsound
  · exact ⟨dependency, hcycle⟩
  · rcases s.find?_aliases.mp hsound with ⟨q, hq, hname, -⟩ | hold
    · exact ⟨q.dependency, s.onCycle_iff.mpr ⟨q, hq, hname, rfl⟩⟩
    · -- the value would be deferred, and so would be one of the operands
      have hshift := (s.judged_doneList.free _ _ hold).resolve_right (not_not_intro h)
      have hdeferred := AliasValue.shift_eq_deferred hshift
      have hopen : ¬(s.evaluate ⟨s.aliases.1, (Definitions.ofLines s).declared⟩ p.position
          p.expr).1.Definite := fun hdefinite => hdefinite.ne_deferred hdeferred
      obtain ⟨leaf, hleaf, heq⟩ := s.exists_leaf_of_evaluate hopen
      exact absurd (heq.trans hdeferred) (hs p hp ⟨b, hedge⟩ leaf hleaf)

/-- **Errors about cycles are exact.**  An alias has an error about waiting for another only if it
refers to the other and the other has such an error too, so following the names in the errors ends in
a cycle of references.  Where no operand is deferred, the aliases with such an error are exactly those
that lead to a cycle. -/
theorem cycleErrors_exact (s : Site) :
    let d := Definitions.ofLines s
    let values := s.aliases.1
    (∀ name dependency, WorkList.OnCycle values name dependency →
        d.Refers name dependency ∧ ∃ next, WorkList.OnCycle values dependency next) ∧
      (∀ name dependency, WorkList.OnCycle values name dependency →
        ∃ c, ReflTransGen (WorkList.OnCycle values) name c ∧
          TransGen (WorkList.OnCycle values) c c) ∧
      (s.Undeferred → ∀ name,
        (∃ dependency, WorkList.OnCycle values name dependency) ↔ d.LeadsToCycle name) := by
  refine ⟨fun _ _ => s.refers_of_onCycle, fun _ _ => s.exists_cycle_of_onCycle, ?_⟩
  intro hs name
  constructor
  · rintro ⟨dependency, h⟩
    exact s.leadsToCycle_of_onCycle h
  · exact s.onCycle_of_leadsToCycle hs

/-- An object with two aliases that refer to each other, one that refers to both the first of them and
a number, and the number. -/
def ringAliases : Site where
  context := .localTo ["A"] false
  object := "A"
  source := ⟨[⟨.aliasDefinition ⟨"A", ['#', 'B', ' ', '+', ' ', '1'], 11⟩, ⟨0, 17⟩, 0⟩,
    ⟨.aliasDefinition ⟨"B", ['#', 'A'], 29⟩, ⟨18, 31⟩, 0⟩,
    ⟨.aliasDefinition ⟨"C", ['#', 'D', ' ', '*', ' ', '#', 'A'], 43⟩, ⟨32, 50⟩, 0⟩,
    ⟨.aliasDefinition ⟨"D", ['3'], 62⟩, ⟨51, 63⟩, 0⟩], 0⟩

theorem undeferred_ringAliases : ringAliases.Undeferred := by
  have hoperands : ((Definitions.ofLines ringAliases).pending.flatMap fun p =>
      p.expr.tree.leaves.map (·.2)) = [.aliasRef "B", .integer 1, .aliasRef "A", .aliasRef "D",
        .aliasRef "A", .integer 3] := by cbv
  have hvalues : ringAliases.doneList.values.entries =
      [("D", .word ⟨.quadByte, .unsigned, 3⟩)] := by cbv
  have hlookup : ∀ span name, AliasScope.lookup
      ⟨ringAliases.aliases.1, (Definitions.ofLines ringAliases).declared⟩ span name ≠ .deferred := by
    intro span name hdeferred
    have hfound : ringAliases.aliases.1.find? name = some .deferred := by
      unfold AliasScope.lookup at hdeferred
      split at hdeferred
      · cases hdeferred
      · next heq => exact heq
      · cases hdeferred
      · cases hdeferred
      · split at hdeferred <;> cases hdeferred
    rcases ringAliases.find?_aliases.mp hfound with ⟨q, -, -, herror⟩ | hold
    · cases herror
    · rw [NameMap.find?_eq_some_iff, hvalues] at hold
      simp at hold
  intro p hp _ leaf hleaf
  have hmem : leaf.2 ∈ (Definitions.ofLines ringAliases).pending.flatMap fun p =>
      p.expr.tree.leaves.map (·.2) :=
    List.mem_flatMap.mpr ⟨p, hp, List.mem_map_of_mem hleaf⟩
  rw [hoperands] at hmem
  cases hoperand : leaf.2 with
  | aliasRef name => exact hlookup leaf.1 name
  | integer n => exact (AliasValue.computed_ofResult leaf.1 _).definite.ne_deferred
  | _ => simp [hoperand] at hmem

theorem cycleErrors_exact_ringAliases :
    ringAliases.Undeferred ∧ WorkList.OnCycle ringAliases.aliases.1 "C" "A" ∧
      (Definitions.ofLines ringAliases).Refers "C" "A" ∧
      (∃ c, ReflTransGen (WorkList.OnCycle ringAliases.aliases.1) "C" c ∧
        TransGen (WorkList.OnCycle ringAliases.aliases.1) c c) ∧
      (Definitions.ofLines ringAliases).LeadsToCycle "C" ∧
      ¬(Definitions.ofLines ringAliases).LeadsToCycle "D" := by
  have hparked : ringAliases.doneList.parked.map (fun q => (q.waiting.name, q.dependency)) =
      [("A", "B"), ("B", "A"), ("C", "A")] := by cbv
  have hcycle : ∀ name dependency, WorkList.OnCycle ringAliases.aliases.1 name dependency ↔
      (name, dependency) ∈ [("A", "B"), ("B", "A"), ("C", "A")] := by
    intro name dependency
    rw [onCycle_iff, ← hparked, List.mem_map]
    simp only [Prod.mk.injEq]
  have hC : WorkList.OnCycle ringAliases.aliases.1 "C" "A" := (hcycle _ _).mpr (by decide)
  obtain ⟨hrefers, hfollow, hexact⟩ := cycleErrors_exact ringAliases
  have hundeferred := undeferred_ringAliases
  refine ⟨hundeferred, hC, (hrefers _ _ hC).1, hfollow _ _ hC,
    (hexact hundeferred "C").mp ⟨"A", hC⟩, ?_⟩
  rw [← hexact hundeferred "D"]
  rintro ⟨dependency, hD⟩
  have hmem := (hcycle _ _).mp hD
  simp at hmem

end Site

end LinkAsm
