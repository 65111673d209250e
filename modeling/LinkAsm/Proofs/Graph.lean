import Mathlib

/-!
# Finite graphs

Whoever goes on forever in a finite graph comes to a cycle.  Build orders and the aliases of an
object are such graphs on names.

* `exists_cycle_or_of_forall_exists`: what always leads on leads to a cycle.
* `wellFounded_of_acyclic`: without cycles every way ends.
-/

namespace LinkAsm

open Relation

variable {α : Type} {R : α → α → Prop} {S : List α}

/-- In a finite set each member of which leads to another or out of it, every member leads out of it
or to a cycle. -/
theorem exists_cycle_or_of_forall_exists {Q : α → Prop}
    (h : ∀ x ∈ S, ∃ y, R x y ∧ (y ∈ S ∨ Q y)) {x : α} (hx : x ∈ S) :
    ∃ y, ReflTransGen R x y ∧ (TransGen R y y ∨ Q y) := by
  by_contra hnone
  push Not at hnone
  -- among the members that `x` leads to, a last one would exist if there were no cycle
  let T := {y // y ∈ S ∧ ReflTransGen R x y}
  have hfinite : Finite T :=
    Set.Finite.subset (List.finite_toSet S) fun y (hy : y ∈ S ∧ ReflTransGen R x y) => hy.1
  let later : T → T → Prop := fun a b => TransGen R b.1 a.1
  have htrans : IsTrans T later := ⟨fun a b c hab hbc => TransGen.trans hbc hab⟩
  have hirrefl : Std.Irrefl later := ⟨fun a hcycle => (hnone a.1 a.2.2).1 hcycle⟩
  have hwf := Finite.wellFounded_of_trans_of_irrefl later
  obtain ⟨last, -, hlast⟩ := hwf.has_min Set.univ ⟨⟨x, hx, .refl⟩, trivial⟩
  obtain ⟨y, hR, hy⟩ := h last.1 last.2.1
  have hpath : ReflTransGen R x y := last.2.2.tail hR
  have hmem : y ∈ S := hy.resolve_right (hnone y hpath).2
  exact hlast ⟨y, hmem, hpath⟩ trivial (.single hR)

/-- Without cycles every way through finitely many members ends. -/
theorem wellFounded_of_acyclic (hmem : ∀ a b, R a b → a ∈ S) (h : ∀ a, ¬TransGen R a a) :
    WellFounded fun b a => R a b := by
  classical
  rw [WellFounded.wellFounded_iff_has_min]
  rintro T ⟨x, hx⟩
  by_contra hnone
  push Not at hnone
  -- without a last member each of `T` leads to another
  have hnext : ∀ a ∈ S.filter (· ∈ T), ∃ b, R a b ∧ (b ∈ S.filter (· ∈ T) ∨ False) := by
    intro a ha
    obtain ⟨b, hb, hR⟩ := hnone a (of_decide_eq_true (List.mem_filter.mp ha).2)
    obtain ⟨c, -, hR'⟩ := hnone b hb
    exact ⟨b, hR, Or.inl (List.mem_filter.mpr ⟨hmem b c hR', decide_eq_true hb⟩)⟩
  obtain ⟨b, -, hR⟩ := hnone x hx
  obtain ⟨y, -, hcycle | hfalse⟩ := exists_cycle_or_of_forall_exists hnext
    (List.mem_filter.mpr ⟨hmem x b hR, decide_eq_true hx⟩)
  · exact h y hcycle
  · exact hfalse

end LinkAsm
