import LinkAsm.Number.Binary

/-!
# Fixed-point reals

A number can fail in three ways to be a word or an address (`RangeError`).

A real number is held in 32 bits, as the two's complement of its nearest multiple of `1 / 2 ^ 16`.
So it lies between `-2 ^ 15` and `2 ^ 15`; a half step goes away from zero.

* `encode_lt`: an encoded number has 32 bits.
-/

namespace LinkAsm

/-- Why a number has no representation. -/
inductive RangeError where
  | tooLarge
  | tooSmall
  | notFinite
deriving DecidableEq, Repr

/-- The text of a range error. -/
def RangeError.message : RangeError → String
  | .tooLarge => "value is too large"
  | .tooSmall => "value is too small"
  | .notFinite => "value is not a finite number"

namespace FixedPoint

open Number

/-- The number of steps in a unit. -/
def steps : Nat := 0x10000

/-- The 32-bit two's complement of `n`. -/
def complement (n : Int) : Nat := (n % 0x100000000).toNat

/-- The number whose 32-bit two's complement is `bits`. -/
def signed (bits : Nat) : Int := if bits < 0x80000000 then bits else bits - 0x100000000

/-- The bits of the fixed-point real nearest to an exact number. -/
def encodeFraction (q : Fraction) : Except RangeError Nat :=
  let n := (q.scale steps).round
  if n ≥ 0x80000000 then .error .tooLarge
  else if n < -0x80000000 then .error .tooSmall
  else .ok (complement n)

/-- The bits of the fixed-point real nearest to a double. -/
def encode (x : Float) : Except RangeError Nat :=
  match Fraction.ofFloat? x with
  | none => .error .notFinite
  | some q => encodeFraction q

/-- The exact value of fixed-point bits. -/
def toFraction (bits : Nat) : Fraction := ⟨signed bits, steps⟩

/-- The value of fixed-point bits; every such value is a double. -/
def decode (bits : Nat) : Float := Float.ofInt (signed bits) / 65536.0

theorem complement_lt (n : Int) : complement n < 0x100000000 := by
  unfold complement
  have h₁ := Int.emod_nonneg n (b := 0x100000000) (by decide)
  have h₂ := Int.emod_lt_of_pos n (b := 0x100000000) (by decide)
  omega

theorem encode_lt {x : Float} {bits : Nat} (h : encode x = .ok bits) : bits < 0x100000000 := by
  unfold encode encodeFraction at h
  split at h
  · simp at h
  · simp only at h
    split at h
    · simp at h
    · split at h
      · simp at h
      · cases h
        exact complement_lt _

end FixedPoint

end LinkAsm
