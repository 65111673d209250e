import LinkAsm.Pass.Evaluate

/-!
# Outcomes of expressions

An outcome is a word, an error, deferred, or waits for an alias.  Operators, casts and constants are
computed, so they give a word or an error at their own place; the other two come from leaves only and
go up the tree, deferred before waiting.

* `AliasValue.Settled`: the outcome waits for no alias.
* `AliasValue.Definite`: it is a word or an error.
* `AliasValue.Computed`, `AliasValue.OfLeaf`: all that is computed at a place, and all that a leaf at a
  place can be, with the kinds of errors.
* `AliasValue.combine_cases`, `AliasValue.castAs_cases`: an operator has the outcome of one side or is
  computed, and a cast leaves the outcome as it is or is computed.
* `AliasValue.settled_combine`: when an operator is settled.
-/

namespace LinkAsm

/-- Whether an outcome waits for no alias. -/
def AliasValue.Settled (v : AliasValue) : Prop := ∀ name, v ≠ .dependsOn name

/-- Whether an outcome is a word or an error. -/
def AliasValue.Definite : AliasValue → Prop
  | .word _ | .error _ => True
  | .deferred | .dependsOn _ => False

namespace AliasValue

theorem settled_word (w : Word) : (word w).Settled := by
  intro name h
  cases h

theorem settled_error (e : AliasError) : (error e).Settled := by
  intro name h
  cases h

theorem settled_shift_iff {v : AliasValue} {n : Nat} : (v.shift n).Settled ↔ v.Settled := by
  cases v <;> simp [Settled, shift]

theorem shift_eq_deferred {v : AliasValue} {n : Nat} (h : v.shift n = .deferred) :
    v = .deferred := by
  cases v with
  | error e => cases h
  | _ => exact h

theorem Definite.ne_deferred {v : AliasValue} (h : v.Definite) : v ≠ .deferred := by
  rintro rfl
  exact h

theorem Definite.ne_dependsOn {v : AliasValue} {name : String} (h : v.Definite) :
    v ≠ .dependsOn name := by
  rintro rfl
  exact h

end AliasValue

/-! ## What is computed -/

/-- Whether an outcome is computed at a place: a word, or one of the errors that operators, casts and
constants have, which stands at this place. -/
inductive AliasValue.Computed (span : Span) : AliasValue → Prop
  | word (w : Word) : Computed span (.word w)
  | nonFinite : Computed span (.fail span .nonFinite)
  | outOfRange (e : RangeError) : Computed span (.fail span (.outOfRange e))
  | invalidCast (name : String) : Computed span (.fail span (.invalidCast name))
  | invalidInjector (kind value : String) :
    Computed span (.fail span (.invalidInjector kind value))

namespace AliasValue

theorem Computed.definite {span : Span} {v : AliasValue} (h : v.Computed span) : v.Definite := by
  cases h <;> trivial

theorem computed_ofResult (span : Span) (result : Except RangeError Word) :
    (ofResult span result).Computed span := by
  cases result with
  | ok w => exact .word w
  | error e => exact .outOfRange e

theorem computed_ofFloat (span : Span) (x : Float) : (ofFloat span x).Computed span := by
  unfold ofFloat
  split
  · exact .nonFinite
  · dsimp only
    split
    · exact computed_ofResult span _
    · exact computed_ofResult span _

end AliasValue

theorem Operator.computed_applyUnsigned (op : Operator) (span : Span) (v w : Word) :
    (op.applyUnsigned span v w).Computed span := by
  cases op with
  | add => exact AliasValue.computed_ofResult span _
  | subtract =>
    simp only [applyUnsigned]
    split
    · exact AliasValue.computed_ofFloat span _
    · exact AliasValue.computed_ofResult span _
  | multiply => exact AliasValue.computed_ofResult span _
  | divide =>
    simp only [applyUnsigned]
    split
    · exact .nonFinite
    · split
      · exact AliasValue.computed_ofFloat span _
      · exact AliasValue.computed_ofResult span _
  | power => exact AliasValue.computed_ofResult span _

/-- Operators on words are computed. -/
theorem Operator.computed_apply (op : Operator) (span : Span) (v w : Word) :
    (op.apply span v w).Computed span := by
  unfold apply
  split
  · exact AliasValue.computed_ofFloat span _
  · exact op.computed_applyUnsigned span v w

/-- Casts of words are computed. -/
theorem Cast.computed_apply (cast : Cast) (span : Span) (w : Word) :
    (cast.apply span w).Computed span := by
  cases cast with
  | width target => exact AliasValue.computed_ofResult span _
  | float =>
    simp only [apply]
    split
    · exact .word w
    · exact AliasValue.computed_ofResult span _
  | address => exact AliasValue.computed_ofResult span _
  | unknown name => exact .invalidCast name

/-- Constants are computed. -/
theorem computed_injected (span : Span) (kind value : String) :
    (injected span kind value).Computed span := by
  unfold injected
  split
  · exact .word _
  · exact .invalidInjector kind value

/-! ## Leaves -/

/-- Whether an outcome is one that a leaf at a place can have. -/
inductive AliasValue.OfLeaf (span : Span) : AliasValue → Prop
  | computed {v : AliasValue} (h : v.Computed span) : OfLeaf span v
  | deferred : OfLeaf span .deferred
  | dependsOn (name : String) : OfLeaf span (.dependsOn name)
  | undefinedAlias (name : String) : OfLeaf span (.fail span (.undefinedAlias name))
  | erroneousDependency (name : String) : OfLeaf span (.fail span (.erroneousDependency name))
  | unimplementedInjector (kind : String) : OfLeaf span (.fail span (.unimplementedInjector kind))
  | undeclaredImport (qualifier : String) : OfLeaf span (.fail span (.undeclaredImport qualifier))
  | unresolvedExternal (object symbol : String) :
    OfLeaf span (.fail span (.unresolvedExternal object symbol))
  | address (failure : AddressFailure) : OfLeaf span (.fail span (.address failure))

theorem AliasScope.ofLeaf_lookup (a : AliasScope) (span : Span) (name : String) :
    (a.lookup span name).OfLeaf span := by
  unfold lookup
  split
  · exact .computed (.word _)
  · exact .deferred
  · exact .erroneousDependency name
  · exact .dependsOn name
  · split
    · exact .dependsOn name
    · exact .undefinedAlias name

theorem Site.ofLeaf_importedValue (s : Site) (span : Span) (qualifier symbol : String) :
    (s.importedValue span qualifier symbol).OfLeaf span := by
  unfold importedValue
  split
  · exact .deferred
  · split
    · exact .undeclaredImport qualifier
    · split
      · exact .computed (.word _)
      · exact .deferred
      · exact .erroneousDependency symbol
      · exact .unresolvedExternal _ symbol

theorem Site.ofLeaf_evaluateOperand (s : Site) (aliases : AliasScope) (position : Nat)
    (span : Span) (operand : Operand) :
    (s.evaluateOperand aliases position span operand).1.OfLeaf span := by
  cases operand with
  | aliasRef name => exact aliases.ofLeaf_lookup span name
  | address ref =>
    simp only [evaluateOperand]
    split
    · exact .computed (.word _)
    · exact .deferred
    · exact .address _
  | injector kind value => exact .computed (computed_injected span kind value)
  | quotedInjector kind value => exact .unimplementedInjector kind
  | imported qualifier symbol => exact s.ofLeaf_importedValue span qualifier symbol
  | integer n => exact .computed (AliasValue.computed_ofResult span _)
  | float x => exact .computed (AliasValue.computed_ofFloat span x)

/-- An error of a leaf stands at its place. -/
theorem AliasValue.OfLeaf.span_eq {span : Span} {e : AliasError} (h : (error e).OfLeaf span) :
    e.span = span := by
  generalize hv : error e = v at h
  cases h with
  | computed h => cases h <;> cases hv <;> rfl
  | _ => cases hv <;> rfl

/-! ## Operators and casts in a tree -/

namespace AliasValue

/-- A settled operator is deferred by one of its sides, or both its sides are settled. -/
theorem settled_combine {op : Operator} {span : Span} {l r : AliasValue}
    (h : (combine op span l r).Settled) : l = .deferred ∨ r = .deferred ∨ l.Settled ∧ r.Settled := by
  cases l with
  | deferred => exact Or.inl rfl
  | dependsOn name =>
    cases r with
    | deferred => exact Or.inr (Or.inl rfl)
    | word w => exact absurd rfl (h name)
    | error e => exact absurd rfl (h name)
    | dependsOn other => exact absurd rfl (h name)
  | word v =>
    cases r with
    | deferred => exact Or.inr (Or.inl rfl)
    | word w => exact Or.inr (Or.inr ⟨settled_word v, settled_word w⟩)
    | error e => exact Or.inr (Or.inr ⟨settled_word v, settled_error e⟩)
    | dependsOn other => exact absurd rfl (h other)
  | error e =>
    cases r with
    | deferred => exact Or.inr (Or.inl rfl)
    | word w => exact Or.inr (Or.inr ⟨settled_error e, settled_word w⟩)
    | error e' => exact Or.inr (Or.inr ⟨settled_error e, settled_error e'⟩)
    | dependsOn other => exact absurd rfl (h other)

/-- The outcome of an expression from that of its tree. -/
def castAs (v : AliasValue) : Option (Span × Cast) → AliasValue
  | none => v
  | some (span, .unknown name) => .fail span (.invalidCast name)
  | some (span, cast) =>
    match v with
    | .word w => cast.apply span w
    | other => other

/-- A settled expression has a settled tree, or a name that is no cast, which makes it an error
whatever its tree. -/
theorem settled_castAs {v : AliasValue} {cast : Option (Span × Cast)} (h : (v.castAs cast).Settled) :
    v.Settled ∨ ∀ v' : AliasValue, v'.castAs cast = v.castAs cast := by
  cases cast with
  | none => exact Or.inl h
  | some c =>
    obtain ⟨span, cast⟩ := c
    cases cast with
    | unknown name => exact Or.inr fun _ => rfl
    | _ =>
      refine Or.inl ?_
      cases v with
      | word w => exact settled_word w
      | error e => exact settled_error e
      | _ => exact h

theorem combine_deferred_left (op : Operator) (span : Span) (r : AliasValue) :
    combine op span .deferred r = .deferred := by
  cases r <;> rfl

theorem combine_deferred_right (op : Operator) (span : Span) (l : AliasValue) :
    combine op span l .deferred = .deferred := by
  cases l <;> rfl

/-- An operator has the outcome of one of its sides, or is computed. -/
theorem combine_cases (op : Operator) (span : Span) (l r : AliasValue) :
    combine op span l r = l ∨ combine op span l r = r ∨ (combine op span l r).Computed span := by
  cases l with
  | deferred => exact Or.inl (combine_deferred_left op span r)
  | dependsOn name =>
    cases r with
    | deferred => exact Or.inr (Or.inl rfl)
    | _ => exact Or.inl rfl
  | word v =>
    cases r with
    | word w => exact Or.inr (Or.inr (op.computed_apply span v w))
    | _ => exact Or.inr (Or.inl rfl)
  | error e =>
    cases r with
    | word w => exact Or.inl rfl
    | error e' => exact Or.inl rfl
    | _ => exact Or.inr (Or.inl rfl)

/-- An operator that is not definite has the outcome of one of its sides. -/
theorem combine_of_not_definite {op : Operator} {span : Span} {l r : AliasValue}
    (h : ¬(combine op span l r).Definite) : combine op span l r = l ∨ combine op span l r = r := by
  rcases combine_cases op span l r with hleft | hright | hcomputed
  · exact Or.inl hleft
  · exact Or.inr hright
  · exact absurd hcomputed.definite h

theorem castAs_word (cast : Cast) (span : Span) (w : Word) :
    (word w).castAs (some (span, cast)) = cast.apply span w := by
  cases cast <;> rfl

/-- A cast leaves the outcome of a tree as it is, or is computed. -/
theorem castAs_cases (v : AliasValue) (cast : Option (Span × Cast)) :
    v.castAs cast = v ∨
      ∃ span target, cast = some (span, target) ∧ (v.castAs cast).Computed span := by
  cases cast with
  | none => exact Or.inl rfl
  | some c =>
    obtain ⟨span, cast⟩ := c
    cases v with
    | word w =>
      refine Or.inr ⟨span, cast, rfl, ?_⟩
      rw [castAs_word]
      exact cast.computed_apply span w
    | _ =>
      cases cast with
      | unknown name => exact Or.inr ⟨span, _, rfl, .invalidCast name⟩
      | _ => exact Or.inl rfl

/-- A cast leaves a tree that is not definite as it is. -/
theorem eq_of_castAs {v : AliasValue} {cast : Option (Span × Cast)}
    (h : ¬(v.castAs cast).Definite) : v.castAs cast = v := by
  rcases castAs_cases v cast with heq | ⟨span, target, -, hcomputed⟩
  · exact heq
  · exact absurd hcomputed.definite h

end AliasValue

end LinkAsm
