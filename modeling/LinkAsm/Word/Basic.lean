import LinkAsm.Number.Text
import LinkAsm.Text.Basic
import LinkAsm.Word.FixedPoint

/-!
# Words

A word is one to four bytes, read as an unsigned number or, if it has four bytes, as a fixed-point
real.  The width belongs to the word: a flag of one byte is not the four-byte word with the same
number.

* `Word.Valid`: the bits fit the width, and a real has four bytes.
* `Word.ofNat_eq_ok_iff`: exactly the numbers that fit a width are words of it.
-/

namespace LinkAsm

/-- The width of a word. -/
inductive Width where
  | byte
  | doubleByte
  | triByte
  | quadByte
deriving DecidableEq, Repr

namespace Width

/-- The number of bytes. -/
def bytes : Width → Nat
  | .byte => 1
  | .doubleByte => 2
  | .triByte => 3
  | .quadByte => 4

/-- The number of words of a width. -/
def modulus : Width → Nat
  | .byte => 0x100
  | .doubleByte => 0x10000
  | .triByte => 0x1000000
  | .quadByte => 0x100000000

/-- The largest number of a width. -/
def maxValue (w : Width) : Nat := w.modulus - 1

/-- Whether a number fits a width. -/
def holds (w : Width) (n : Nat) : Bool := n ≤ w.maxValue

/-- The width with a given number of bytes. -/
def ofBytes? : Nat → Option Width
  | 1 => some .byte
  | 2 => some .doubleByte
  | 3 => some .triByte
  | 4 => some .quadByte
  | _ => none

/-- The wider of two widths. -/
def wider (v w : Width) : Width := if v.bytes < w.bytes then w else v

/-- The name of a width, which is also the name of the cast to it. -/
def name : Width → String
  | .byte => "Byte"
  | .doubleByte => "DoubleByte"
  | .triByte => "TriByte"
  | .quadByte => "QuadByte"

theorem modulus_pos (w : Width) : 0 < w.modulus := by cases w <;> decide

theorem holds_iff (w : Width) (n : Nat) : w.holds n = true ↔ n < w.modulus := by
  have := w.modulus_pos
  unfold holds maxValue
  rw [decide_eq_true_eq]
  omega

end Width

/-- How the bits of a word are read. -/
inductive Encoding where
  | unsigned
  | real
deriving DecidableEq, Repr

/-- One to four bytes with a reading. -/
structure Word where
  width : Width
  encoding : Encoding
  bits : Nat
deriving DecidableEq, Repr

namespace Word

/-- The bits of a word fit its width, and a real takes four bytes. -/
def Valid (w : Word) : Prop :=
  w.bits < w.width.modulus ∧ (w.encoding = .real → w.width = .quadByte)

/-- The unsigned word with all bits zero. -/
def zero (width : Width) : Word := ⟨width, .unsigned, 0⟩

/-- The unsigned word that holds a number. -/
def ofNat (width : Width) (n : Nat) : Except RangeError Word :=
  if width.holds n then .ok ⟨width, .unsigned, n⟩ else .error .tooLarge

/-- The unsigned word that holds the integer part of an exact number. -/
def ofFraction (width : Width) (q : Number.Fraction) : Except RangeError Word :=
  if q.num < 0 then .error .tooSmall
  else if q.num > width.maxValue * q.den then .error .tooLarge
  else ofNat width q.truncate.toNat

/-- The unsigned word that holds the integer part of a double. -/
def ofFloat (width : Width) (x : Float) : Except RangeError Word :=
  match Number.Fraction.ofFloat? x with
  | none => .error .notFinite
  | some q => ofFraction width q

/-- The real word nearest to a double. -/
def real (x : Float) : Except RangeError Word :=
  (FixedPoint.encode x).map (⟨.quadByte, .real, ·⟩)

/-- Whether the word is a real. -/
def isReal (w : Word) : Bool := w.encoding == .real

/-- The exact value of a word. -/
def toFraction (w : Word) : Number.Fraction :=
  match w.encoding with
  | .unsigned => ⟨w.bits, 1⟩
  | .real => FixedPoint.toFraction w.bits

/-- The value of a word as a double, which it always is. -/
def toFloat (w : Word) : Float :=
  match w.encoding with
  | .unsigned => Float.ofNat w.bits
  | .real => FixedPoint.decode w.bits

/-- The bytes of `n`, the most significant first, `k` of them. -/
def bytesOf : Nat → Nat → List Nat
  | 0, _ => []
  | k + 1, n => n / Nat.pow 256 k % 256 :: bytesOf k n

/-- The bytes of a word, the most significant first. -/
def toBytes (w : Word) : List Nat := bytesOf w.width.bytes w.bits

/-- The word with another width.  A real loses its fraction, unless it keeps its four bytes. -/
def resized (w : Word) (width : Width) : Except RangeError Word :=
  match w.encoding with
  | .unsigned => ofNat width w.bits
  | .real => if width = .quadByte then .ok w else ofFraction width w.toFraction

/-- The text of a word: two digits for each byte, and the value of a real. -/
def text (w : Word) : String :=
  let digits := Text.hex (2 * w.width.bytes) w.bits
  match w.encoding with
  | .unsigned => digits
  | .real => digits ++ " (" ++ Number.text w.toFloat ++ ")"

/-- The text of a word with its width. -/
def describe (w : Word) : String := w.width.name ++ "(" ++ w.text ++ ")"

/-! ## Construction keeps words valid -/

theorem ofNat_eq_ok_iff {width : Width} {n : Nat} {w : Word} :
    ofNat width n = .ok w ↔ n < width.modulus ∧ w = ⟨width, .unsigned, n⟩ := by
  unfold ofNat
  by_cases h : width.holds n
  · simp only [h, if_true, Except.ok.injEq, (width.holds_iff n).mp h, true_and]
    exact eq_comm
  · simp only [h, Bool.false_eq_true, if_false, reduceCtorEq, false_iff]
    exact fun hn => h ((width.holds_iff n).mpr hn.1)

theorem valid_zero (width : Width) : (zero width).Valid :=
  ⟨width.modulus_pos, by simp [zero]⟩

theorem valid_of_ofNat {width : Width} {n : Nat} {w : Word} (h : ofNat width n = .ok w) :
    w.Valid := by
  obtain ⟨hn, rfl⟩ := ofNat_eq_ok_iff.mp h
  exact ⟨hn, by simp⟩

theorem valid_of_ofFraction {width : Width} {q : Number.Fraction} {w : Word}
    (h : ofFraction width q = .ok w) : w.Valid := by
  unfold ofFraction at h
  split at h
  · simp at h
  · split at h
    · simp at h
    · exact valid_of_ofNat h

theorem valid_of_ofFloat {width : Width} {x : Float} {w : Word} (h : ofFloat width x = .ok w) :
    w.Valid := by
  unfold ofFloat at h
  split at h
  · simp at h
  · exact valid_of_ofFraction h

theorem valid_of_real {x : Float} {w : Word} (h : real x = .ok w) : w.Valid := by
  unfold real at h
  cases he : FixedPoint.encode x with
  | error e => rw [he] at h; simp [Except.map] at h
  | ok bits =>
    rw [he] at h
    simp only [Except.map, Except.ok.injEq] at h
    subst h
    exact ⟨FixedPoint.encode_lt he, by simp⟩

theorem valid_of_resized {w w' : Word} {width : Width} (hw : w.Valid)
    (h : w.resized width = .ok w') : w'.Valid := by
  unfold resized at h
  split at h
  · exact valid_of_ofNat h
  · split at h
    · cases h; exact hw
    · exact valid_of_ofFraction h

end Word

end LinkAsm
