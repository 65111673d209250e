import Mathlib
import LinkAsm.Word.Arithmetic

/-!
# Words that can be made

Words are made by checked constructors, by resizing, and by operations that wrap an integer to a
width.  However these are composed, the bits of a word fit its width and only four bytes are ever a
real, so the bytes of a word lose none of its bits.  The operations are compared with the exact
results on the bits as natural numbers: a quotient is rounded down in the rationals, and the bitwise
operations are given place by place.

* `Word.Made`: the words that can be made, and `Word.Made.valid`, that they are valid.
* `Word.Operation.IsResult`: the exact results of the operations.
* `Word.wraps_apply`: an operation wraps its exact result and flags what is lost.
* `Word.arithmetic_exact`: all of it together, with the bytes of words.
-/

namespace LinkAsm

/-! ## Widths -/

namespace Width

theorem modulus_eq (w : Width) : w.modulus = 2 ^ (8 * w.bytes) := by
  cases w <;> rfl

theorem modulus_le (w : Width) : w.modulus ≤ 2 ^ 32 := by
  cases w <;> decide

theorem bytes_wider (v w : Width) : (v.wider w).bytes = max v.bytes w.bytes := by
  unfold wider
  split <;> omega

end Width

namespace Word

/-! ## Bytes -/

theorem length_bytesOf (k n : ℕ) : (bytesOf k n).length = k := by
  induction k with
  | zero => rfl
  | succ k ih => rw [bytesOf, List.length_cons, ih]

theorem lt_of_mem_bytesOf {k n b : ℕ} (h : b ∈ bytesOf k n) : b < 256 := by
  induction k with
  | zero => cases h
  | succ k ih =>
    rcases List.mem_cons.mp h with rfl | hrest
    · exact Nat.mod_lt _ (by decide)
    · exact ih hrest

/-- `k` bytes are those of the number without what stands above them. -/
theorem ofDigits_bytesOf (k n : ℕ) : Nat.ofDigits 256 (bytesOf k n).reverse = n % 256 ^ k := by
  induction k with
  | zero => rw [bytesOf, List.reverse_nil, Nat.ofDigits_nil, pow_zero, Nat.mod_one]
  | succ k ih =>
    rw [bytesOf, List.reverse_cons, Nat.ofDigits_append, Nat.ofDigits_singleton,
      List.length_reverse, length_bytesOf, ih, Nat.mod_pow_succ]
    rfl

/-- The bytes of a valid word hold all its bits. -/
theorem Valid.ofDigits_toBytes {w : Word} (h : w.Valid) :
    Nat.ofDigits 256 w.toBytes.reverse = w.bits := by
  have hmodulus : w.width.modulus = 256 ^ w.width.bytes := by
    rw [Width.modulus_eq, pow_mul]
    rfl
  rw [toBytes, ofDigits_bytesOf, ← hmodulus, Nat.mod_eq_of_lt h.1]

/-! ## Narrowing -/

namespace Flagged

theorem exact_eq_ok_iff (f : Flagged) (w : Word) :
    f.exact = .ok w ↔ f.overflow = false ∧ f.underflow = false ∧ w = f.value := by
  unfold exact
  cases f.overflow <;> cases f.underflow <;> simp [eq_comm]

/-- Whether a result is the integer `n` wrapped to a number of bytes, and its flags say what was
lost. -/
structure Wraps (f : Flagged) (bytes : ℕ) (n : ℤ) : Prop where
  width : f.value.width.bytes = bytes
  encoding : f.value.encoding = .unsigned
  bits : (f.value.bits : ℤ) = n % 2 ^ (8 * bytes)
  overflow : f.overflow = true ↔ 2 ^ (8 * bytes) ≤ n
  underflow : f.underflow = true ↔ n < 0
  ok : ∀ w, f.exact = .ok w ↔ (0 ≤ n ∧ n < 2 ^ (8 * bytes)) ∧ w = f.value

end Flagged

theorem wraps_narrow (width : Width) (n : ℤ) : (narrow width n).Wraps width.bytes n := by
  have hmodulus : (width.modulus : ℤ) = 2 ^ (8 * width.bytes) := by
    exact_mod_cast width.modulus_eq
  have hpos : (0 : ℤ) < 2 ^ (8 * width.bytes) := by positivity
  have hoverflow : (narrow width n).overflow = decide (2 ^ (8 * width.bytes) ≤ n) := by
    rw [← hmodulus]
    rfl
  have hunderflow : (narrow width n).underflow = decide (n < 0) := rfl
  refine ⟨rfl, rfl, ?_, ?_, ?_, ?_⟩
  · rw [← hmodulus] at hpos ⊢
    exact Int.toNat_of_nonneg (Int.emod_nonneg n hpos.ne')
  · rw [hoverflow, decide_eq_true_eq]
  · rw [hunderflow, decide_eq_true_eq]
  · intro w
    rw [Flagged.exact_eq_ok_iff, hoverflow, hunderflow, decide_eq_false_iff_not,
      decide_eq_false_iff_not, not_le, not_lt]
    tauto

/-! ## Operations -/

/-- The operations on two words. -/
inductive Operation where
  | sum
  | difference
  | product
  | quotient
  | bitAnd
  | bitOr
  | bitXor
deriving DecidableEq, Repr

/-- Whether `n` has at each place what `f` makes of the bits of `a` and `b` there. -/
def IsBitwise (f : Bool → Bool → Bool) (a b : ℕ) (n : ℤ) : Prop :=
  ∃ m : ℕ, n = m ∧ ∀ i, m.testBit i = f (a.testBit i) (b.testBit i)

theorem isBitwise_iff {f : Bool → Bool → Bool} {a b m : ℕ} {n : ℤ}
    (hm : ∀ i, m.testBit i = f (a.testBit i) (b.testBit i)) : IsBitwise f a b n ↔ n = m := by
  constructor
  · rintro ⟨k, rfl, hk⟩
    rw [Nat.eq_of_testBit_eq fun i => (hk i).trans (hm i).symm]
  · intro hn
    exact ⟨m, hn, hm⟩

namespace Operation

/-- What an operation makes of two words. -/
def apply : Operation → Word → Word → Flagged
  | .sum => Word.sum
  | .difference => Word.difference
  | .product => Word.product
  | .quotient => Word.quotient
  | .bitAnd => Word.bitAnd
  | .bitOr => Word.bitOr
  | .bitXor => Word.bitXor

/-- Whether an integer is the exact result of an operation on two numbers.  There is no quotient by
zero. -/
def IsResult (op : Operation) (a b : ℕ) (n : ℤ) : Prop :=
  match op with
  | .sum => n = a + b
  | .difference => n = a - b
  | .product => n = a * b
  | .quotient => b ≠ 0 ∧ n = ⌊(a : ℚ) / b⌋
  | .bitAnd => IsBitwise and a b n
  | .bitOr => IsBitwise or a b n
  | .bitXor => IsBitwise xor a b n

/-- The integer that an operation computes, except for a quotient by zero. -/
def compute : Operation → ℕ → ℕ → ℤ
  | .sum, a, b => a + b
  | .difference, a, b => a - b
  | .product, a, b => a * b
  | .quotient, a, b => (a / b : ℕ)
  | .bitAnd, a, b => (a &&& b : ℕ)
  | .bitOr, a, b => (a ||| b : ℕ)
  | .bitXor, a, b => (a ^^^ b : ℕ)

/-- Operations compute their exact results. -/
theorem isResult_iff (op : Operation) (a b : ℕ) (n : ℤ) :
    op.IsResult a b n ↔ (op = .quotient → b ≠ 0) ∧ n = op.compute a b := by
  cases op with
  | sum | difference | product => simp [IsResult, compute]
  | quotient =>
    have hfloor : ⌊(a : ℚ) / b⌋ = ((a / b : ℕ) : ℤ) := by
      rw [Rat.floor_natCast_div_natCast]
      norm_cast
    simp [IsResult, compute, hfloor]
  | bitAnd => simpa [IsResult, compute] using isBitwise_iff (Nat.testBit_and a b)
  | bitOr => simpa [IsResult, compute] using isBitwise_iff (Nat.testBit_or a b)
  | bitXor => simpa [IsResult, compute] using isBitwise_iff (Nat.testBit_xor a b)

/-- On numbers of 32 bits all results have 64 bits and a sign, so no room is needed for more. -/
theorem abs_compute_lt (op : Operation) {a b : ℕ} (ha : a < 2 ^ 32) (hb : b < 2 ^ 32) :
    |op.compute a b| < 2 ^ 64 := by
  have hnat : ∀ m : ℕ, m < 2 ^ 64 → |(m : ℤ)| < 2 ^ 64 := by
    intro m hm
    rw [Nat.abs_cast]
    exact_mod_cast hm
  cases op with
  | sum => exact hnat (a + b) (by omega)
  | difference =>
    rw [compute, abs_lt]
    omega
  | product =>
    have hproduct : a * b < 2 ^ 32 * 2 ^ 32 := Nat.mul_lt_mul'' ha hb
    exact hnat (a * b) hproduct
  | quotient => exact hnat (a / b) ((Nat.div_le_self a b).trans_lt (by omega))
  | bitAnd => exact hnat (a &&& b) (Nat.and_le_left.trans_lt (by omega))
  | bitOr => exact hnat (a ||| b) ((Nat.or_lt_two_pow ha hb).trans (by decide))
  | bitXor => exact hnat (a ^^^ b) ((Nat.xor_lt_two_pow ha hb).trans (by decide))

theorem apply_eq_narrow (op : Operation) (v w : Word) (h : op = .quotient → w.bits ≠ 0) :
    op.apply v w = narrow (v.width.wider w.width) (op.compute v.bits w.bits) := by
  cases op with
  | quotient => exact if_neg (h rfl)
  | sum | difference | product | bitAnd | bitOr | bitXor => rfl

end Operation

/-- An operation wraps its exact result to the wider width. -/
theorem wraps_apply {op : Operation} {v w : Word} {n : ℤ} (h : op.IsResult v.bits w.bits n) :
    (op.apply v w).Wraps (max v.width.bytes w.width.bytes) n := by
  obtain ⟨hdivisor, rfl⟩ := (op.isResult_iff _ _ _).mp h
  rw [op.apply_eq_narrow v w hdivisor, ← Width.bytes_wider]
  exact wraps_narrow _ _

theorem quotient_of_zero (v : Word) {w : Word} (h : w.bits = 0) :
    quotient v w = undefined (v.width.wider w.width) :=
  if_pos h

/-! ## Made words -/

/-- Whether a word can be made by constructors, changes of width and operations. -/
inductive Made : Word → Prop
  | zero (width : Width) : Made (zero width)
  | ofNat {width : Width} {n : ℕ} {w : Word} (h : ofNat width n = .ok w) : Made w
  | ofFloat {width : Width} {x : Float} {w : Word} (h : ofFloat width x = .ok w) : Made w
  | real {x : Float} {w : Word} (h : real x = .ok w) : Made w
  | resized {v w : Word} {width : Width} (hv : Made v) (h : v.resized width = .ok w) : Made w
  /-- The wrapped value of an operation, whatever its flags are. -/
  | value (op : Operation) {v w : Word} (hv : Made v) (hw : Made w) : Made (op.apply v w).value

theorem Valid.bits_lt {w : Word} (h : w.Valid) : w.bits < 2 ^ 32 :=
  Nat.lt_of_lt_of_le h.1 w.width.modulus_le

theorem Valid.bits_le {w : Word} (h : w.Valid) : w.bits ≤ w.width.maxValue :=
  Nat.le_sub_one_of_lt h.1

theorem valid_undefined (width : Width) : (undefined width).value.Valid :=
  ⟨Nat.sub_one_lt width.modulus_pos.ne', by simp [undefined]⟩

/-- Operations make valid words of all words. -/
theorem valid_apply (op : Operation) (v w : Word) : (op.apply v w).value.Valid := by
  by_cases hzero : op = .quotient ∧ w.bits = 0
  · obtain ⟨rfl, hw⟩ := hzero
    show (quotient v w).value.Valid
    rw [quotient_of_zero v hw]
    exact valid_undefined _
  · rw [op.apply_eq_narrow v w fun hop hw => hzero ⟨hop, hw⟩]
    exact valid_narrow _ _

theorem Made.valid {w : Word} (h : Made w) : w.Valid := by
  induction h with
  | zero width => exact valid_zero width
  | ofNat h => exact valid_of_ofNat h
  | ofFloat h => exact valid_of_ofFloat h
  | real h => exact valid_of_real h
  | resized hv h ih => exact valid_of_resized ih h
  | value op hv hw ihv ihw => exact valid_apply op _ _

/-- **Arithmetic on words is exact.**  The bits of a word that can be made fit its width, and a real
takes four bytes; the bytes of the word, as many as its width has, are its bits in base 256.  Every
operation on the bits of two such words has one exact result, of at most 64 bits and a sign, unless
it divides by zero.  It wraps this result to the wider width, and its flags say whether the result
was too large or too small.  A quotient by zero is flagged as too large only. -/
theorem arithmetic_exact :
    (∀ w, Made w →
      w.bits ≤ w.width.maxValue ∧ (w.encoding = .real → w.width = .quadByte) ∧
      w.toBytes.length = w.width.bytes ∧ (∀ b ∈ w.toBytes, b < 256) ∧
      Nat.ofDigits 256 w.toBytes.reverse = w.bits) ∧
    (∀ (op : Operation) (v w : Word), Made v → Made w → (op = .quotient → w.bits ≠ 0) →
      ∃ n, (∀ m, op.IsResult v.bits w.bits m ↔ m = n) ∧ |n| < 2 ^ 64 ∧
        (op.apply v w).Wraps (max v.width.bytes w.width.bytes) n) ∧
    ∀ v w, Made v → Made w → w.bits = 0 →
      (quotient v w).overflow = true ∧ (quotient v w).underflow = false := by
  refine ⟨?_, ?_, ?_⟩
  · intro w hw
    exact ⟨hw.valid.bits_le, hw.valid.2, length_bytesOf _ _, fun _ => lt_of_mem_bytesOf,
      hw.valid.ofDigits_toBytes⟩
  · intro op v w hv hw hdivisor
    have hresult : ∀ m, op.IsResult v.bits w.bits m ↔ m = op.compute v.bits w.bits := by
      intro m
      rw [op.isResult_iff]
      exact and_iff_right hdivisor
    exact ⟨op.compute v.bits w.bits, hresult, op.abs_compute_lt hv.valid.bits_lt hw.valid.bits_lt,
      wraps_apply ((hresult _).mpr rfl)⟩
  · intro v w _ _ hzero
    rw [quotient_of_zero v hzero]
    exact ⟨rfl, rfl⟩

/-- The largest byte. -/
def largestByte : Word := ⟨.byte, .unsigned, 0xFF⟩

/-- The real `-1`. -/
def minusOne : Word := ⟨.quadByte, .real, 0xFFFF0000⟩

/-- The byte less the bits of the real is far below zero, and wrapped it fits three bytes. -/
theorem arithmetic_exact_minusOne :
    ofNat .byte 0xFF = .ok largestByte ∧ real (-1.0) = .ok minusOne ∧
      (difference largestByte minusOne).value.resized .triByte =
        .ok ⟨.triByte, .unsigned, 0x100FF⟩ ∧
      toBytes ⟨.triByte, .unsigned, 0x100FF⟩ = [1, 0, 0xFF] ∧
      Nat.ofDigits 256 [1, 0, 0xFF].reverse = 0x100FF ∧
      (difference largestByte minusOne).Wraps 4 (0xFF - 0xFFFF0000) ∧
      (difference largestByte minusOne).underflow = true ∧
      (quotient minusOne (zero .byte)).overflow = true ∧
      (quotient minusOne (zero .byte)).underflow = false := by
  have hbyte : ofNat .byte 0xFF = .ok largestByte := rfl
  have hreal : real (-1.0) = .ok minusOne := by decide +kernel
  have hresized : (difference largestByte minusOne).value.resized .triByte =
      .ok ⟨.triByte, .unsigned, 0x100FF⟩ := by decide +kernel
  obtain ⟨hmade, hoperations, hzero⟩ := arithmetic_exact
  have hfirst : Made largestByte := Made.ofNat hbyte
  have hsecond : Made minusOne := Made.real hreal
  have hdifference : Made (difference largestByte minusOne).value :=
    Made.value .difference hfirst hsecond
  obtain ⟨-, -, -, -, hbytes⟩ := hmade _ (Made.resized hdifference hresized)
  obtain ⟨n, hn, -, hwraps⟩ :=
    hoperations .difference largestByte minusOne hfirst hsecond (by simp)
  obtain rfl : (0xFF - 0xFFFF0000 : ℤ) = n := (hn _).mp rfl
  exact ⟨hbyte, hreal, hresized, rfl, hbytes, hwraps, hwraps.underflow.mpr (by decide),
    hzero minusOne (zero .byte) hsecond (Made.zero .byte) rfl⟩

end Word

end LinkAsm
