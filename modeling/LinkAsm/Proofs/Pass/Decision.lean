import Mathlib
import LinkAsm.Proofs.Pass.Cycles

/-!
# What decides an outcome

The rule for one operator looks at its two sides only: deferred before waiting, waiting before an
error, left before right.  Over a whole tree this becomes a rule about the leaves, however deep they
are.  If one is deferred, the tree is.  If none is and some wait, the tree waits for the alias of
the first of these in the text.  Otherwise all leaves are words or errors, and the tree is evaluated
from the left to the right, each operator behind its two sides: the first error on that way is the
outcome, and without one it is a word.

* `Tree.nodes`: the nodes of a tree in that order.
* `Tree.word?`, `Tree.ownError?`: the word of a tree, and the error of a single node, from the
  outcomes of leaves alone.
* `Site.dependency?_evaluateTree`, `Site.word?_evaluateTree`, `Site.error?_evaluateTree`: what
  evaluation makes of them.
* `Site.outcome_decided_by_leaves`: which outcome a tree has.
-/

namespace LinkAsm

/-! ## Parts of an outcome -/

namespace AliasValue

/-- The word that an outcome is. -/
def word? : AliasValue → Option Word
  | .word w => some w
  | _ => none

/-- The error that an outcome is. -/
def error? : AliasValue → Option AliasError
  | .error e => some e
  | _ => none

/-- The alias that an outcome waits for. -/
def dependency? : AliasValue → Option String
  | .dependsOn name => some name
  | _ => none

variable {v l r : AliasValue} {op : Operator} {span : Span}

theorem word?_eq_some_iff {w : Word} : v.word? = some w ↔ v = .word w := by
  cases v <;> simp [word?]

theorem error?_eq_some_iff {e : AliasError} : v.error? = some e ↔ v = .error e := by
  cases v <;> simp [error?]

theorem dependency?_eq_some_iff {name : String} :
    v.dependency? = some name ↔ v = .dependsOn name := by
  cases v <;> simp [dependency?]

theorem Definite.dependency?_eq_none (h : v.Definite) : v.dependency? = none := by
  cases v with
  | dependsOn name => exact h.elim
  | _ => rfl

/-- A definite outcome is a word exactly if it is no error. -/
theorem Definite.exists_word_iff (h : v.Definite) : (∃ w, v = .word w) ↔ v.error? = none := by
  cases v with
  | word w => exact ⟨fun _ => rfl, fun _ => ⟨w, rfl⟩⟩
  | error e => simp [error?]
  | _ => exact h.elim

/-! ## One operator -/

theorem ne_deferred_of_combine (h : combine op span l r ≠ .deferred) :
    l ≠ .deferred ∧ r ≠ .deferred := by
  constructor
  · rintro rfl
    exact h (combine_deferred_left op span r)
  · rintro rfl
    exact h (combine_deferred_right op span l)

theorem word?_combine (op : Operator) (span : Span) (l r : AliasValue) :
    (combine op span l r).word? =
      l.word?.bind fun v => r.word?.bind fun w => (op.apply span v w).word? := by
  cases l <;> cases r <;> rfl

theorem dependency?_combine (hl : l ≠ .deferred) (hr : r ≠ .deferred) :
    (combine op span l r).dependency? = l.dependency?.or r.dependency? := by
  cases l with
  | deferred => exact absurd rfl hl
  | dependsOn name =>
    cases r with
    | deferred => exact absurd rfl hr
    | _ => rfl
  | word v =>
    cases r with
    | deferred => exact absurd rfl hr
    | word w => exact (op.computed_apply span v w).definite.dependency?_eq_none
    | _ => rfl
  | error e =>
    cases r with
    | deferred => exact absurd rfl hr
    | _ => rfl

theorem error?_combine (hl : l.Definite) (hr : r.Definite) :
    (combine op span l r).error? = (l.error?.or r.error?).or
      (l.word?.bind fun v => r.word?.bind fun w => (op.apply span v w).error?) := by
  cases l with
  | deferred => exact hl.elim
  | dependsOn name => exact hl.elim
  | word v =>
    cases r with
    | deferred => exact hr.elim
    | dependsOn name => exact hr.elim
    | word w => rfl
    | error e => rfl
  | error e =>
    cases r with
    | deferred => exact hr.elim
    | dependsOn name => exact hr.elim
    | _ => rfl

end AliasValue

/-! ## A tree and the outcomes of its leaves -/

namespace Tree

/-- The nodes of a tree, each behind those of its left and of its right side. -/
def nodes : Tree → List Tree
  | .leaf span operand => [.leaf span operand]
  | .binary span op left right => left.nodes ++ right.nodes ++ [.binary span op left right]

/-- The word of a tree, if all leaves are words and no operator on words fails. -/
def word? (outcome : Span × Operand → AliasValue) : Tree → Option Word
  | .leaf span operand => (outcome (span, operand)).word?
  | .binary span op left right =>
    (left.word? outcome).bind fun v => (right.word? outcome).bind fun w => (op.apply span v w).word?

/-- The error with which a node fails by itself: that of a leaf, or that of an operator on the words
of its two sides. -/
def ownError? (outcome : Span × Operand → AliasValue) : Tree → Option AliasError
  | .leaf span operand => (outcome (span, operand)).error?
  | .binary span op left right =>
    (left.word? outcome).bind fun v =>
      (right.word? outcome).bind fun w => (op.apply span v w).error?

end Tree

namespace Site

/-- The outcome of a leaf. -/
def leafOutcome (s : Site) (aliases : AliasScope) (position : Nat) (leaf : Span × Operand) :
    AliasValue :=
  (s.evaluateOperand aliases position leaf.1 leaf.2).1

variable (s : Site) (aliases : AliasScope) (position : Nat)

theorem evaluateTree_eq_deferred_iff (tree : Tree) :
    (s.evaluateTree aliases position tree).1 = .deferred ↔
      ∃ leaf ∈ tree.leaves, s.leafOutcome aliases position leaf = .deferred := by
  constructor
  · intro h
    have hopen : ¬(s.evaluateTree aliases position tree).1.Definite := by
      rw [h]
      exact id
    obtain ⟨leaf, hmem, hleaf⟩ := s.exists_leaf_of_evaluateTree hopen
    exact ⟨leaf, hmem, hleaf.trans h⟩
  · rintro ⟨leaf, hmem, hleaf⟩
    induction tree with
    | leaf span operand =>
      obtain rfl := List.mem_singleton.mp hmem
      exact hleaf
    | binary span op left right ihl ihr =>
      simp only [evaluateTree]
      rcases List.mem_append.mp hmem with hleft | hright
      · rw [ihl hleft, AliasValue.combine_deferred_left]
      · rw [ihr hright, AliasValue.combine_deferred_right]

theorem definite_evaluateTree_iff (tree : Tree) :
    (s.evaluateTree aliases position tree).1.Definite ↔
      ∀ leaf ∈ tree.leaves, (s.leafOutcome aliases position leaf).Definite := by
  constructor
  · intro h leaf hleaf
    exact s.definite_leaf_of_evaluateTree h hleaf
  · intro h
    by_contra hopen
    obtain ⟨leaf, hmem, heq⟩ := s.exists_leaf_of_evaluateTree hopen
    exact hopen (heq ▸ h leaf hmem)

/-- A tree that is not deferred waits as the first of its leaves that waits. -/
theorem dependency?_evaluateTree {tree : Tree}
    (h : (s.evaluateTree aliases position tree).1 ≠ .deferred) :
    (s.evaluateTree aliases position tree).1.dependency? =
      tree.leaves.findSome? fun leaf => (s.leafOutcome aliases position leaf).dependency? := by
  induction tree with
  | leaf span operand =>
    rw [Tree.leaves, List.findSome?_singleton]
    rfl
  | binary span op left right ihl ihr =>
    simp only [evaluateTree] at h ⊢
    obtain ⟨hl, hr⟩ := AliasValue.ne_deferred_of_combine h
    rw [AliasValue.dependency?_combine hl hr, ihl hl, ihr hr, Tree.leaves, List.findSome?_append]

theorem word?_evaluateTree (tree : Tree) :
    (s.evaluateTree aliases position tree).1.word? =
      tree.word? (s.leafOutcome aliases position) := by
  induction tree with
  | leaf span operand => rfl
  | binary span op left right ihl ihr =>
    simp only [evaluateTree]
    rw [AliasValue.word?_combine, ihl, ihr, Tree.word?]

/-- A tree that is a word or an error fails as the first of its nodes that fails. -/
theorem error?_evaluateTree {tree : Tree} (h : (s.evaluateTree aliases position tree).1.Definite) :
    (s.evaluateTree aliases position tree).1.error? =
      tree.nodes.findSome? (·.ownError? (s.leafOutcome aliases position)) := by
  induction tree with
  | leaf span operand =>
    rw [Tree.nodes, List.findSome?_singleton]
    rfl
  | binary span op left right ihl ihr =>
    simp only [evaluateTree] at h ⊢
    obtain ⟨hl, hr⟩ := AliasValue.definite_of_combine h
    rw [AliasValue.error?_combine hl hr, ihl hl, ihr hr, word?_evaluateTree, word?_evaluateTree,
      Tree.nodes, List.findSome?_append, List.findSome?_append, List.findSome?_singleton,
      Tree.ownError?]

/-- **The outcome of a tree is decided by its leaves.**  It is deferred exactly if some leaf is.  It
waits for an alias exactly if no leaf is deferred and the first leaf that waits does so for this
alias.  It is a word exactly if all leaves are words or errors and no node fails, neither a leaf nor
an operator on the words of its sides, and the word is then computed from those of the leaves.  And
it is an error exactly if all leaves are words or errors and this is the error of the first node
that fails, in the order left side, right side, operator. -/
theorem outcome_decided_by_leaves (tree : Tree) :
    ((s.evaluateTree aliases position tree).1 = .deferred ↔
        ∃ leaf ∈ tree.leaves, s.leafOutcome aliases position leaf = .deferred) ∧
      (∀ name, (s.evaluateTree aliases position tree).1 = .dependsOn name ↔
        (∀ leaf ∈ tree.leaves, s.leafOutcome aliases position leaf ≠ .deferred) ∧
          tree.leaves.findSome? (fun leaf => (s.leafOutcome aliases position leaf).dependency?) =
            some name) ∧
      ((∃ w, (s.evaluateTree aliases position tree).1 = .word w) ↔
        (∀ leaf ∈ tree.leaves, (s.leafOutcome aliases position leaf).Definite) ∧
          ∀ node ∈ tree.nodes, node.ownError? (s.leafOutcome aliases position) = none) ∧
      (∀ w, (s.evaluateTree aliases position tree).1 = .word w ↔
        tree.word? (s.leafOutcome aliases position) = some w) ∧
      ∀ e, (s.evaluateTree aliases position tree).1 = .error e ↔
        (∀ leaf ∈ tree.leaves, (s.leafOutcome aliases position leaf).Definite) ∧
          tree.nodes.findSome? (·.ownError? (s.leafOutcome aliases position)) = some e := by
  have hdeferred := s.evaluateTree_eq_deferred_iff aliases position tree
  have hdefinite := s.definite_evaluateTree_iff aliases position tree
  refine ⟨hdeferred, ?_, ?_, ?_, ?_⟩
  · intro name
    have hnone : (∀ leaf ∈ tree.leaves, s.leafOutcome aliases position leaf ≠ .deferred) ↔
        (s.evaluateTree aliases position tree).1 ≠ .deferred := by
      rw [ne_eq, hdeferred]
      simp only [not_exists, not_and, ne_eq]
    rw [hnone, ← AliasValue.dependency?_eq_some_iff]
    constructor
    · intro h
      have hne : (s.evaluateTree aliases position tree).1 ≠ .deferred := by
        rw [AliasValue.dependency?_eq_some_iff.mp h]
        exact AliasValue.noConfusion
      exact ⟨hne, s.dependency?_evaluateTree aliases position hne ▸ h⟩
    · rintro ⟨hne, h⟩
      exact (s.dependency?_evaluateTree aliases position hne).trans h
  · rw [← hdefinite, ← List.findSome?_eq_none_iff]
    constructor
    · rintro ⟨w, hw⟩
      have h : (s.evaluateTree aliases position tree).1.Definite := by
        rw [hw]
        trivial
      exact ⟨h, s.error?_evaluateTree aliases position h ▸ h.exists_word_iff.mp ⟨w, hw⟩⟩
    · rintro ⟨h, hnone⟩
      exact h.exists_word_iff.mpr ((s.error?_evaluateTree aliases position h).trans hnone)
  · intro w
    rw [← AliasValue.word?_eq_some_iff, word?_evaluateTree]
  · intro e
    rw [← hdefinite, ← AliasValue.error?_eq_some_iff]
    constructor
    · intro he
      have h : (s.evaluateTree aliases position tree).1.Definite := by
        rw [AliasValue.error?_eq_some_iff.mp he]
        trivial
      exact ⟨h, s.error?_evaluateTree aliases position h ▸ he⟩
    · rintro ⟨h, he⟩
      exact (s.error?_evaluateTree aliases position h).trans he

end Site

end LinkAsm
