import LinkAsm.Word.Basic

/-!
# Addresses

Memory has `2 ^ 32` bytes and every instruction takes four of them, so the instruction `n` places
after an address stands `4 n` bytes further.  Addresses never wrap: one outside of memory is an
error.
-/

namespace LinkAsm

/-- The place of a byte in memory. -/
structure Address where
  value : Nat
deriving DecidableEq, Repr

namespace Address

/-- The number of bytes of memory. -/
def limit : Nat := 0x100000000

/-- The number of bytes of an instruction. -/
def instructionBytes : Nat := 4

/-- The address `n`, if memory has one. -/
def ofNat (n : Nat) : Except RangeError Address :=
  if n < limit then .ok ⟨n⟩ else .error .tooLarge

/-- The address `n`, if memory has one. -/
def ofInt (n : Int) : Except RangeError Address :=
  if n < 0 then .error .tooSmall else ofNat n.toNat

/-- The address that a word names; of a real, its integer part. -/
def ofWord (w : Word) : Except RangeError Address :=
  match w.encoding with
  | .unsigned => .ok ⟨w.bits⟩
  | .real => ofInt w.toFraction.truncate

/-- The address `n` bytes further. -/
def offset (a : Address) (n : Int) : Except RangeError Address := ofInt (a.value + n)

/-- The address of the instruction `n` places further. -/
def instruction (a : Address) (n : Nat) : Except RangeError Address :=
  ofNat (a.value + instructionBytes * n)

/-- Whether an address fits a width. -/
def fitsIn (a : Address) (width : Width) : Bool := width.holds a.value

/-- The address as a four-byte word. -/
def toWord (a : Address) : Word := ⟨.quadByte, .unsigned, a.value⟩

/-- The text of an address: eight digits. -/
def text (a : Address) : String := Text.hex 8 a.value

/-- The text of an address with its kind. -/
def describe (a : Address) : String := "Address(" ++ a.text ++ ")"

theorem ofNat_eq_ok_iff {n : Nat} {a : Address} : ofNat n = .ok a ↔ n < limit ∧ a = ⟨n⟩ := by
  unfold ofNat
  split
  · next h => simp [h, eq_comm]
  · next h => simp [h]

theorem toOption_ofNat (n : Nat) :
    (ofNat n).toOption = if n < limit then some ⟨n⟩ else none := by
  unfold ofNat
  split <;> rfl

theorem value_of_ofInt {n : Int} {a : Address} (h : ofInt n = .ok a) :
    (a.value : Int) = n ∧ a.value < limit := by
  unfold ofInt at h
  split at h
  · cases h
  · next hneg =>
    obtain ⟨hlt, rfl⟩ := ofNat_eq_ok_iff.mp h
    exact ⟨Int.toNat_of_nonneg (Int.not_lt.mp hneg), hlt⟩

theorem eq_of_ofInt {n : Int} {a : Address} (h : ofInt n = .ok a) : a = ⟨n.toNat⟩ := by
  rw [← (value_of_ofInt h).1, Int.toNat_natCast]

theorem ofWord_toWord (a : Address) : ofWord a.toWord = .ok a := rfl

end Address

end LinkAsm
