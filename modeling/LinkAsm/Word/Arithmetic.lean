import LinkAsm.Word.Basic

/-!
# Arithmetic on words

An operation takes the exact integer result of the two words' bits and narrows it to the wider of
their widths: the result is wrapped, and flags tell whether it was too large or too small.
-/

namespace LinkAsm.Word

/-- A result wrapped to its width, with what was lost. -/
structure Flagged where
  value : Word
  overflow : Bool
  underflow : Bool
deriving DecidableEq, Repr

namespace Flagged

/-- Whether nothing was lost. -/
def isExact (f : Flagged) : Bool := !(f.overflow || f.underflow)

/-- The result, unless something was lost. -/
def exact (f : Flagged) : Except RangeError Word :=
  if f.overflow then .error .tooLarge
  else if f.underflow then .error .tooSmall
  else .ok f.value

end Flagged

/-- The integer `n` wrapped to a width. -/
def narrow (width : Width) (n : Int) : Flagged where
  value := ⟨width, .unsigned, (n % width.modulus).toNat⟩
  overflow := width.modulus ≤ n
  underflow := n < 0

/-- The answer when there is no result: all bits set, and too large. -/
def undefined (width : Width) : Flagged := ⟨⟨width, .unsigned, width.maxValue⟩, true, false⟩

/-- The operation with result `f` on the bits, narrowed to the wider width. -/
def combine (f : Nat → Nat → Int) (v w : Word) : Flagged :=
  narrow (v.width.wider w.width) (f v.bits w.bits)

/-- The sum of two words. -/
def sum (v w : Word) : Flagged := combine (fun a b => a + b) v w

/-- The first word less the second. -/
def difference (v w : Word) : Flagged := combine (fun a b => a - b) v w

/-- The product of two words. -/
def product (v w : Word) : Flagged := combine (fun a b => a * b) v w

/-- The quotient of two words without its remainder; there is none by zero. -/
def quotient (v w : Word) : Flagged :=
  if w.bits = 0 then undefined (v.width.wider w.width)
  else combine (fun a b => (a / b : Nat)) v w

/-- The bits set in both words. -/
def bitAnd (v w : Word) : Flagged := combine (fun a b => (a &&& b : Nat)) v w

/-- The bits set in one of two words. -/
def bitOr (v w : Word) : Flagged := combine (fun a b => (a ||| b : Nat)) v w

/-- The bits set in exactly one of two words. -/
def bitXor (v w : Word) : Flagged := combine (fun a b => (a ^^^ b : Nat)) v w

/-- A narrowed result is valid whatever the integer. -/
theorem valid_narrow (width : Width) (n : Int) : (narrow width n).value.Valid := by
  have hpos : (0 : Int) < width.modulus := by exact_mod_cast width.modulus_pos
  refine ⟨?_, by simp [narrow]⟩
  have h₁ := Int.emod_nonneg n (Int.ne_of_gt hpos)
  have h₂ := Int.emod_lt_of_pos n hpos
  simp only [narrow]
  omega

end LinkAsm.Word
