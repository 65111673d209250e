import Mathlib
import LinkAsm.Proofs.Pass.Decision

/-!
# Whole numbers in expressions

Operators on unsigned words take ways of their own: sums, differences, products and quotients are
exact integers that are narrowed to four bytes, powers are computed or refused by their size, and
what is no natural number goes through doubles.  Here they are compared with the operators on
natural numbers.  Where the result is a natural number all ways lead to the same check: the word
that holds the number if it has 32 bits, and else an error at the place of the operator.  So a tree
of whole numbers is evaluated exactly as long as each of its results has 32 bits, whatever the
widths of its leaves, and nothing is wrapped or rounded on the way.

* `Operator.onNaturals`: the operators on natural numbers.
* `Operator.applyUnsigned_of_onNaturals`: what the operators on words make of them.
* `Tree.number?`: the number that a tree is.
* `Site.integer_expressions_exact`: trees and single nodes of whole numbers.
-/

namespace LinkAsm

/-! ## Natural numbers -/

/-- The operator on natural numbers, where it has a result: differences are not below zero, divisors
not zero, and quotients exact. -/
def Operator.onNaturals (op : Operator) (a b : Nat) : Option Nat :=
  match op with
  | .add => some (a + b)
  | .subtract => if b ≤ a then some (a - b) else none
  | .multiply => some (a * b)
  | .divide => if b ≠ 0 ∧ b ∣ a then some (a / b) else none
  | .power => some (a ^ b)

/-- The number that an outcome is, if it is an unsigned word. -/
def AliasValue.unsigned? : AliasValue → Option Nat
  | .word w => if w.encoding = .unsigned then some w.bits else none
  | _ => none

/-- The number that a tree is, if its leaves are unsigned words and every operator has a result on
natural numbers, and one below `2 ^ 32`. -/
def Tree.number? (outcome : Span × Operand → AliasValue) : Tree → Option Nat
  | .leaf span operand => (outcome (span, operand)).unsigned?
  | .binary _ op left right =>
    (left.number? outcome).bind fun a => (right.number? outcome).bind fun b =>
      (op.onNaturals a b).filter (· < 2 ^ 32)

/-! ## Words -/

namespace Word

/-- A natural number is narrowed without loss exactly if it fits. -/
theorem exact_narrow (width : Width) (n : Nat) :
    (narrow width (n : Int)).exact = ofNat width n := by
  have hholds := width.holds_iff n
  unfold Flagged.exact narrow ofNat
  by_cases hn : n < width.modulus
  · have hmod : ((n : Int) % width.modulus).toNat = n := by
      rw [← Int.natCast_mod, Int.toNat_natCast, Nat.mod_eq_of_lt hn]
    simp [hholds.mpr hn, Nat.not_le.mpr hn, hmod]
  · simp [mt hholds.mp hn, Nat.not_lt.mp hn]

theorem ofNat_quadByte_of_lt {n : Nat} (h : n < 2 ^ 32) :
    ofNat .quadByte n = .ok ⟨.quadByte, .unsigned, n⟩ :=
  ofNat_eq_ok_iff.mpr ⟨h, rfl⟩

theorem ofNat_quadByte_of_le {n : Nat} (h : 2 ^ 32 ≤ n) : ofNat .quadByte n = .error .tooLarge := by
  refine if_neg ?_
  rw [Width.holds_iff]
  exact Nat.not_lt.mpr h

end Word

/-! ## Operators -/

namespace Operator

/-- Powers that are refused by their size are those that do not fit. -/
theorem powerWord_eq (a b : Nat) : powerWord a b = Word.ofNat .quadByte (a ^ b) := by
  unfold powerWord
  split
  · next hbase =>
    -- bases zero and one, where only the exponent zero makes a difference
    congr 1
    split
    · next hzero => rw [hzero, pow_zero]
    · next hpos =>
      interval_cases a
      · rw [zero_pow hpos]
      · rw [one_pow]
  · next hbase =>
    split
    · next hexp =>
      have hle : 2 ^ 32 ≤ a ^ b :=
        (Nat.pow_le_pow_right (by decide) hexp).trans (Nat.pow_le_pow_left (by omega) b)
      rw [Word.ofNat_quadByte_of_le hle]
    · rfl

variable {op : Operator} {v w : Word} {n : Nat}

/-- On unsigned words all operators check the exact result in the same way, if there is one. -/
theorem applyUnsigned_of_onNaturals (span : Span) (h : op.onNaturals v.bits w.bits = some n) :
    op.applyUnsigned span v w = .ofResult span (Word.ofNat .quadByte n) := by
  cases op with
  | add =>
    obtain rfl := Option.some.inj h
    rw [← Word.exact_narrow]
    rfl
  | subtract =>
    obtain ⟨hle, rfl⟩ := Option.ite_none_right_eq_some.mp h |>.imp_right Option.some.inj
    rw [← Word.exact_narrow, Nat.cast_sub hle]
    exact if_neg (Nat.not_lt.mpr hle)
  | multiply =>
    obtain rfl := Option.some.inj h
    rw [← Word.exact_narrow, Nat.cast_mul]
    rfl
  | divide =>
    obtain ⟨⟨hzero, hdvd⟩, rfl⟩ := Option.ite_none_right_eq_some.mp h |>.imp_right Option.some.inj
    rw [← Word.exact_narrow]
    simp only [applyUnsigned, Word.quotient, if_neg hzero, Nat.mod_eq_zero_of_dvd hdvd, ne_eq,
      not_true_eq_false, if_false]
    rfl
  | power =>
    obtain rfl := Option.some.inj h
    rw [← powerWord_eq]
    rfl

theorem apply_of_unsigned (op : Operator) (span : Span) (hv : v.encoding = .unsigned)
    (hw : w.encoding = .unsigned) : op.apply span v w = op.applyUnsigned span v w := by
  simp [apply, Word.isReal, hv, hw]

end Operator

/-! ## Nodes -/

namespace AliasValue

variable {op : Operator} {span : Span} {l r : AliasValue} {a b n : Nat}

theorem unsigned?_eq_some_iff {v : AliasValue} :
    v.unsigned? = some n ↔ ∃ w, v = .word w ∧ w.encoding = .unsigned ∧ w.bits = n := by
  cases v <;> simp [unsigned?]

theorem combine_of_unsigned? (hl : l.unsigned? = some a) (hr : r.unsigned? = some b)
    (hn : op.onNaturals a b = some n) :
    combine op span l r = .ofResult span (Word.ofNat .quadByte n) := by
  obtain ⟨v, rfl, hv, rfl⟩ := unsigned?_eq_some_iff.mp hl
  obtain ⟨w, rfl, hw, rfl⟩ := unsigned?_eq_some_iff.mp hr
  exact (op.apply_of_unsigned span hv hw).trans (Operator.applyUnsigned_of_onNaturals span hn)

theorem combine_divide_zero (hl : l.unsigned? = some a) (hr : r.unsigned? = some 0) :
    combine .divide span l r = .fail span .nonFinite := by
  obtain ⟨v, rfl, hv, rfl⟩ := unsigned?_eq_some_iff.mp hl
  obtain ⟨w, rfl, hw, hzero⟩ := unsigned?_eq_some_iff.mp hr
  refine (Operator.apply_of_unsigned .divide span hv hw).trans ?_
  exact if_pos hzero

end AliasValue

/-! ## Trees -/

namespace Site

variable (s : Site) (aliases : AliasScope) (position : Nat)

theorem evaluateTree_of_number? {span : Span} {op : Operator} {left right : Tree} {n : Nat}
    (hl : ∀ a, left.number? (s.leafOutcome aliases position) = some a →
      (s.evaluateTree aliases position left).1.unsigned? = some a)
    (hr : ∀ b, right.number? (s.leafOutcome aliases position) = some b →
      (s.evaluateTree aliases position right).1.unsigned? = some b)
    (h : (Tree.binary span op left right).number? (s.leafOutcome aliases position) = some n) :
    (s.evaluateTree aliases position (.binary span op left right)).1 =
      .word ⟨.quadByte, .unsigned, n⟩ := by
  obtain ⟨a, ha, h⟩ := Option.bind_eq_some_iff.mp h
  obtain ⟨b, hb, h⟩ := Option.bind_eq_some_iff.mp h
  obtain ⟨hn, hlt⟩ := Option.filter_eq_some_iff.mp h
  simp only [evaluateTree]
  rw [AliasValue.combine_of_unsigned? (hl a ha) (hr b hb) hn,
    Word.ofNat_quadByte_of_lt (of_decide_eq_true hlt), AliasValue.ofResult]

/-- A tree that is a number is evaluated to it. -/
theorem unsigned?_evaluateTree {tree : Tree} {n : Nat}
    (h : tree.number? (s.leafOutcome aliases position) = some n) :
    (s.evaluateTree aliases position tree).1.unsigned? = some n := by
  induction tree generalizing n with
  | leaf span operand => exact h
  | binary span op left right ihl ihr =>
    rw [s.evaluateTree_of_number? aliases position (fun _ => ihl) (fun _ => ihr) h]
    rfl

/-- **Whole numbers are exact.**  A tree with an operator whose leaves are unsigned words, and that
is a number when its operators are those on natural numbers, every result below `2 ^ 32`, is the
unsigned word of four bytes that holds this number.  And where the two sides of an operator are
unsigned words, a result of `2 ^ 32` or more is an error that says so, and a divisor zero is one
too, both at the place of the operator. -/
theorem integer_expressions_exact (span : Span) (op : Operator) (left right : Tree) :
    (∀ n, (Tree.binary span op left right).number? (s.leafOutcome aliases position) = some n →
        (s.evaluateTree aliases position (.binary span op left right)).1 =
          .word ⟨.quadByte, .unsigned, n⟩) ∧
      ∀ a b, (s.evaluateTree aliases position left).1.unsigned? = some a →
        (s.evaluateTree aliases position right).1.unsigned? = some b →
        (∀ n, op.onNaturals a b = some n → 2 ^ 32 ≤ n →
          (s.evaluateTree aliases position (.binary span op left right)).1 =
            .fail span (.outOfRange .tooLarge)) ∧
        (op = .divide → b = 0 →
          (s.evaluateTree aliases position (.binary span op left right)).1 =
            .fail span .nonFinite) := by
  refine ⟨?_, ?_⟩
  · intro n h
    exact s.evaluateTree_of_number? aliases position
      (fun _ => s.unsigned?_evaluateTree aliases position)
      (fun _ => s.unsigned?_evaluateTree aliases position) h
  · intro a b hl hr
    refine ⟨?_, ?_⟩
    · intro n hn hle
      simp only [evaluateTree]
      rw [AliasValue.combine_of_unsigned? hl hr hn, Word.ofNat_quadByte_of_le hle,
        AliasValue.ofResult]
    · rintro rfl rfl
      exact AliasValue.combine_divide_zero hl hr

/-- An object without lines. -/
def blank : Site where
  context := .localTo ["A"] false
  object := "A"
  source := ⟨[], 0⟩

/-- The sum `@flag=1 + 0xFFFFFFFE` of a byte and a word of four bytes, the largest there is. -/
def largestSum : Tree :=
  .binary ⟨0, 20⟩ .add (.leaf ⟨0, 7⟩ (.injector "flag" "1")) (.leaf ⟨10, 20⟩ (.integer 0xFFFFFFFE))

theorem integer_expressions_exact_largestSum :
    largestSum.number? (blank.leafOutcome ⟨.empty, []⟩ 0) = some 0xFFFFFFFF ∧
      (blank.evaluateTree ⟨.empty, []⟩ 0 largestSum).1 =
        .word ⟨.quadByte, .unsigned, 0xFFFFFFFF⟩ ∧
      (blank.evaluateTree ⟨.empty, []⟩ 0
          (.binary ⟨0, 24⟩ .add largestSum (.leaf ⟨23, 24⟩ (.integer 1)))).1 =
        .fail ⟨0, 24⟩ (.outOfRange .tooLarge) ∧
      (blank.evaluateTree ⟨.empty, []⟩ 0
          (.binary ⟨0, 24⟩ .divide largestSum (.leaf ⟨23, 24⟩ (.integer 0)))).1 =
        .fail ⟨0, 24⟩ .nonFinite := by
  have hsum : largestSum.number? (blank.leafOutcome ⟨.empty, []⟩ 0) = some 0xFFFFFFFF := by cbv
  have hleaf : ∀ span n, n < 2 ^ 32 →
      (blank.evaluateTree ⟨.empty, []⟩ 0 (.leaf span (.integer n))).1.unsigned? = some n := by
    intro span n hn
    simp only [evaluateTree, evaluateOperand]
    rw [Word.ofNat_quadByte_of_lt hn]
    rfl
  have hvalue := (integer_expressions_exact blank ⟨.empty, []⟩ 0 _ _ _ _).1 _ hsum
  have hunsigned : (blank.evaluateTree ⟨.empty, []⟩ 0 largestSum).1.unsigned? =
      some 0xFFFFFFFF := by
    rw [largestSum, hvalue]
    rfl
  refine ⟨hsum, hvalue, ?_, ?_⟩
  · exact ((integer_expressions_exact blank ⟨.empty, []⟩ 0 _ .add _ _).2 _ _ hunsigned
      (hleaf _ 1 (by decide))).1 _ rfl (by decide)
  · exact ((integer_expressions_exact blank ⟨.empty, []⟩ 0 _ .divide _ _).2 _ _ hunsigned
      (hleaf _ 0 (by decide))).2 rfl rfl

end Site

end LinkAsm
