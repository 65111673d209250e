import LinkAsm.Proofs.Pass.Outcome

/-!
# Evaluation under more values

The values of aliases are found one after the other, and an expression is evaluated under those that
are there.  An outcome that waits for no alias is final: more values do not change it.

For an operator this rests on the order in which outcomes win.  Where one side waits for an alias,
the outcome is settled only if the other side is deferred, and a deferred side makes the whole
deferred whatever the waiting side becomes.

* `AliasScope.Grows`: one scope has the values of another and perhaps more.
* `Site.evaluate_of_grows`: a settled outcome is the outcome under more values.
* `Site.exists_leaf_of_evaluate`: an outcome that is no word and no error is that of a leaf.
* `Site.evaluate_eq_dependsOn`: what is waited for is named in the expression and has no value.
-/

namespace LinkAsm

/-- The leaves of a tree. -/
def Tree.leaves : Tree → List (Span × Operand)
  | .leaf span operand => [(span, operand)]
  | .binary _ _ left right => left.leaves ++ right.leaves

theorem AliasScope.lookup_eq_dependsOn {a : AliasScope} {span : Span} {name other : String}
    (h : a.lookup span name = .dependsOn other) : name = other := by
  unfold lookup at h
  split at h
  · cases h
  · cases h
  · cases h
  · exact AliasValue.dependsOn.inj h
  · split at h
    · exact AliasValue.dependsOn.inj h
    · cases h

/-- One scope has the values of another and perhaps more, all of declared aliases. -/
structure AliasScope.Grows (a b : AliasScope) : Prop where
  declared : b.declared = a.declared
  values : ∀ name v, a.values.find? name = some v → b.values.find? name = some v
  known : ∀ name v, b.values.find? name = some v → name ∈ b.declared

namespace AliasScope.Grows

variable {a b : AliasScope}

theorem lookup_eq (h : a.Grows b) {span : Span} {name : String}
    (hs : (a.lookup span name).Settled) : b.lookup span name = a.lookup span name := by
  unfold lookup at hs ⊢
  cases hv : a.values.find? name with
  | some v =>
    rw [h.values name v hv]
    cases v <;> rfl
  | none =>
    rw [hv] at hs
    by_cases hd : name ∈ a.declared
    · simp only [hd, if_true] at hs
      exact absurd rfl (hs name)
    · cases hb : b.values.find? name with
      | some v => exact absurd (h.declared ▸ h.known name v hb) hd
      | none => rw [h.declared]

end AliasScope.Grows

namespace Site

variable {a b : AliasScope}

theorem evaluateOperand_of_grows (s : Site) (h : a.Grows b) {position : Nat} {span : Span}
    {operand : Operand} (hs : (s.evaluateOperand a position span operand).1.Settled) :
    (s.evaluateOperand b position span operand).1 =
      (s.evaluateOperand a position span operand).1 := by
  cases operand with
  | aliasRef name => exact h.lookup_eq hs
  | _ => rfl

theorem evaluateTree_of_grows (s : Site) (h : a.Grows b) {position : Nat} {tree : Tree}
    (hs : (s.evaluateTree a position tree).1.Settled) :
    (s.evaluateTree b position tree).1 = (s.evaluateTree a position tree).1 := by
  induction tree with
  | leaf span operand => exact s.evaluateOperand_of_grows h hs
  | binary span op left right ihl ihr =>
    simp only [evaluateTree] at hs ⊢
    rcases AliasValue.settled_combine hs with hl | hr | ⟨hl, hr⟩
    · have hb := ihl (by simp [hl, AliasValue.Settled])
      rw [hb, hl, AliasValue.combine_deferred_left, AliasValue.combine_deferred_left]
    · have hb := ihr (by simp [hr, AliasValue.Settled])
      rw [hb, hr, AliasValue.combine_deferred_right, AliasValue.combine_deferred_right]
    · rw [ihl hl, ihr hr]

theorem evaluate_eq (s : Site) (aliases : AliasScope) (position : Nat) (e : Expr) :
    (s.evaluate aliases position e).1 =
      (s.evaluateTree aliases position e.tree).1.castAs e.cast := by
  unfold evaluate
  cases e.cast with
  | none => rfl
  | some c =>
    obtain ⟨span, cast⟩ := c
    cases s.evaluateTree aliases position e.tree with
    | mk v notes => cases cast <;> cases v <;> rfl

/-- **A settled outcome is final**: it is the outcome under more values too. -/
theorem evaluate_of_grows (s : Site) (h : a.Grows b) {position : Nat} {e : Expr}
    (hs : (s.evaluate a position e).1.Settled) :
    (s.evaluate b position e).1 = (s.evaluate a position e).1 := by
  rw [evaluate_eq] at hs
  rw [evaluate_eq, evaluate_eq]
  rcases AliasValue.settled_castAs hs with ht | hconst
  · rw [s.evaluateTree_of_grows h ht]
  · exact hconst _

/-! ## Where an outcome comes from -/

/-- An outcome that is not definite is that of a leaf. -/
theorem exists_leaf_of_evaluateTree (s : Site) {position : Nat} {tree : Tree}
    (h : ¬(s.evaluateTree a position tree).1.Definite) :
    ∃ leaf ∈ tree.leaves, (s.evaluateOperand a position leaf.1 leaf.2).1 =
      (s.evaluateTree a position tree).1 := by
  induction tree with
  | leaf span operand => exact ⟨(span, operand), List.mem_singleton_self _, rfl⟩
  | binary span op left right ihl ihr =>
    simp only [evaluateTree] at h ⊢
    rcases AliasValue.combine_of_not_definite h with heq | heq
    · rw [heq] at h ⊢
      obtain ⟨leaf, hmem, hleaf⟩ := ihl h
      exact ⟨leaf, List.mem_append_left _ hmem, hleaf⟩
    · rw [heq] at h ⊢
      obtain ⟨leaf, hmem, hleaf⟩ := ihr h
      exact ⟨leaf, List.mem_append_right _ hmem, hleaf⟩

theorem exists_leaf_of_evaluate (s : Site) {position : Nat} {e : Expr}
    (h : ¬(s.evaluate a position e).1.Definite) :
    ∃ leaf ∈ e.tree.leaves, (s.evaluateOperand a position leaf.1 leaf.2).1 =
      (s.evaluate a position e).1 := by
  rw [evaluate_eq] at h ⊢
  have heq := AliasValue.eq_of_castAs h
  rw [heq] at h ⊢
  exact s.exists_leaf_of_evaluateTree h

theorem evaluateOperand_eq_dependsOn (s : Site) {position : Nat} {span : Span} {operand : Operand}
    {name : String} (h : (s.evaluateOperand a position span operand).1 = .dependsOn name) :
    operand = .aliasRef name ∧ a.lookup span name = .dependsOn name := by
  cases operand with
  | aliasRef key =>
    obtain rfl : key = name := a.lookup_eq_dependsOn h
    exact ⟨rfl, h⟩
  | address ref =>
    simp only [evaluateOperand] at h
    split at h <;> cases h
  | injector kind value => exact absurd h (computed_injected span kind value).definite.ne_dependsOn
  | quotedInjector kind value => cases h
  | imported qualifier symbol =>
    simp only [evaluateOperand, importedValue] at h
    split at h
    · cases h
    · split at h
      · cases h
      · split at h <;> cases h
  | integer n => exact absurd h (AliasValue.computed_ofResult span _).definite.ne_dependsOn
  | float x => exact absurd h (AliasValue.computed_ofFloat span x).definite.ne_dependsOn

/-- What waits for an alias names it, and the alias is declared and has no value. -/
theorem evaluate_eq_dependsOn (s : Site) {position : Nat} {e : Expr} {name : String}
    (hs : ∀ key v, a.values.find? key = some v → v.Settled)
    (h : (s.evaluate a position e).1 = .dependsOn name) :
    (∃ span, (span, .aliasRef name) ∈ e.tree.leaves) ∧ name ∈ a.declared ∧
      a.values.find? name = none := by
  obtain ⟨leaf, hmem, hleaf⟩ := s.exists_leaf_of_evaluate (a := a) (fun hd => hd.ne_dependsOn h)
  rw [h] at hleaf
  obtain ⟨hoperand, hlookup⟩ := s.evaluateOperand_eq_dependsOn hleaf
  refine ⟨⟨leaf.1, hoperand ▸ hmem⟩, ?_⟩
  unfold AliasScope.lookup at hlookup
  cases hv : a.values.find? name with
  | some v =>
    cases v with
    | dependsOn other => exact absurd rfl (hs name _ hv other)
    | _ => rw [hv] at hlookup; cases hlookup
  | none =>
    simp only [hv] at hlookup
    split at hlookup
    · next hdeclared => exact ⟨hdeclared, rfl⟩
    · cases hlookup

end Site

end LinkAsm
