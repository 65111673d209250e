/-!
# Texts

Positions in a text count the bytes of its UTF-8 form.  A position is a place to cut only where a
character starts or the text ends, so cutting is partial: `dropBytes` and `takeBytes` answer `none`
inside a character and past the end.

A text is read line by line.  Lines are trimmed of blanks at both ends, and blanks separate the words
of a directive; a blank is a character of the Unicode property `White_Space`.

A report is written in columns, which are padded with spaces to a least width, counted in characters.
Numbers in base sixteen are padded with zeros.
-/

namespace LinkAsm.Text

/-! ## Bytes -/

/-- The number of bytes of `cs` in UTF-8. -/
def byteLength : List Char → Nat
  | [] => 0
  | c :: cs => c.utf8Size + byteLength cs

@[simp] theorem byteLength_nil : byteLength [] = 0 := rfl

@[simp] theorem byteLength_cons (c : Char) (cs : List Char) :
    byteLength (c :: cs) = c.utf8Size + byteLength cs := rfl

@[simp] theorem byteLength_append (cs ds : List Char) :
    byteLength (cs ++ ds) = byteLength cs + byteLength ds := by
  induction cs with
  | nil => simp
  | cons c cs ih => simp [ih, Nat.add_assoc]

/-- What follows the first `n` bytes of a text. -/
def dropBytes : List Char → Nat → Option (List Char)
  | cs, 0 => some cs
  | [], _ + 1 => none
  | c :: cs, n + 1 => if c.utf8Size ≤ n + 1 then dropBytes cs (n + 1 - c.utf8Size) else none

/-- The first `n` bytes of a text. -/
def takeBytes : List Char → Nat → Option (List Char)
  | _, 0 => some []
  | [], _ + 1 => none
  | c :: cs, n + 1 =>
    if c.utf8Size ≤ n + 1 then (takeBytes cs (n + 1 - c.utf8Size)).map (c :: ·) else none

/-- A text can be cut between any two of its parts. -/
theorem dropBytes_append (cs ds : List Char) : dropBytes (cs ++ ds) (byteLength cs) = some ds := by
  induction cs with
  | nil => cases ds <;> simp [dropBytes]
  | cons c cs ih =>
    obtain ⟨k, hk⟩ := Nat.exists_eq_succ_of_ne_zero
      (show c.utf8Size + byteLength cs ≠ 0 by have := c.utf8Size_pos; omega)
    simp only [List.cons_append, byteLength_cons, hk, Nat.succ_eq_add_one, dropBytes]
    rw [if_pos (by omega), show k + 1 - c.utf8Size = byteLength cs by omega, ih]

/-- The first part of a text is read back by its length. -/
theorem takeBytes_append (cs ds : List Char) : takeBytes (cs ++ ds) (byteLength cs) = some cs := by
  induction cs with
  | nil => cases ds <;> simp [takeBytes]
  | cons c cs ih =>
    obtain ⟨k, hk⟩ := Nat.exists_eq_succ_of_ne_zero
      (show c.utf8Size + byteLength cs ≠ 0 by have := c.utf8Size_pos; omega)
    simp only [List.cons_append, byteLength_cons, hk, Nat.succ_eq_add_one, takeBytes]
    rw [if_pos (by omega), show k + 1 - c.utf8Size = byteLength cs by omega, ih]
    rfl

/-! ## Lines -/

/-- The lines of a text, each with the line break that ends it; only the last may lack one. -/
def lines : List Char → List (List Char)
  | [] => []
  | c :: cs =>
    if c = '\n' then [c] :: lines cs
    else match lines cs with
      | [] => [[c]]
      | l :: ls => (c :: l) :: ls

/-- The lines of a text put together are the text. -/
theorem flatten_lines (cs : List Char) : (lines cs).flatten = cs := by
  induction cs with
  | nil => rfl
  | cons c cs ih =>
    by_cases h : c = '\n'
    · simp [lines, h, ih]
    · simp only [lines, h, if_false]
      split
      · next hl => rw [hl] at ih; simpa using ih
      · next l ls hl => rw [hl] at ih; simpa using ih

/-! ## Blanks -/

/-- The characters of the Unicode property `White_Space`. -/
def isBlank (c : Char) : Bool :=
  let n := c.toNat
  (0x09 ≤ n && n ≤ 0x0D) || n == 0x20 || n == 0x85 || n == 0xA0 || n == 0x1680 ||
    (0x2000 ≤ n && n ≤ 0x200A) || n == 0x2028 || n == 0x2029 || n == 0x202F || n == 0x205F ||
    n == 0x3000

/-- `cs` without the blanks it starts with. -/
def trimStart (cs : List Char) : List Char := cs.dropWhile isBlank

/-- `cs` without the blanks it ends with. -/
def trimEnd (cs : List Char) : List Char := (cs.reverse.dropWhile isBlank).reverse

/-- `cs` without the blanks at both ends. -/
def trim (cs : List Char) : List Char := trimEnd (trimStart cs)

/-! ## Columns -/

/-- `s` followed by spaces up to `width` characters. -/
def padRight (width : Nat) (s : String) : String :=
  s ++ String.ofList (List.replicate (width - s.length) ' ')

/-- `s` preceded by spaces up to `width` characters. -/
def padLeft (width : Nat) (s : String) : String :=
  String.ofList (List.replicate (width - s.length) ' ') ++ s

/-- The digits of `n` in base sixteen, in capitals. -/
def hexDigits (n : Nat) : List Char := (Nat.toDigits 16 n).map Char.toUpper

/-- `n` in base sixteen with at least `width` digits, after `0x`. -/
def hex (width n : Nat) : String :=
  let digits := hexDigits n
  String.ofList ('0' :: 'x' :: (List.replicate (width - digits.length) '0' ++ digits))

/-- `n` in base sixteen in small letters, without leading zeros. -/
def lowerHex (n : Nat) : String := String.ofList (Nat.toDigits 16 n)

/-- Lines, each with a line break at its end. -/
def unlines (lines : List String) : String := String.join (lines.map (· ++ "\n"))

end LinkAsm.Text
