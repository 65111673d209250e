import Mathlib
import LinkAsm.Proofs.Expr.References

/-!
# Whole numbers as tokens

A literal is written with digits of base ten, or with digits of base sixteen behind `0x` or `0X`, as
many as there are.  The reader takes the digits one by one, from the most significant on; the number
is the sum of the digits' values by their places (`numeral`).  A literal is one token whatever its
length.  Up to 64 bits it is the token of its number, and beyond that it is no number at all.

* `IsLiteral`: which texts are literals, and of which numbers.
* `IsLiteral.tokenize_eq`: the token that a literal is.
* `IsLiteral.parse_of_lt`, `IsLiteral.parse_of_le`: the operand that it is read as.
-/

namespace LinkAsm

/-! ## Digits -/

/-- The value of a digit: its place among the digits of base sixteen. -/
def digitValue (c : Char) : Nat := "0123456789abcdef".toList.idxOf c.toLower

/-- The number that digits write in a base, the most significant digit first. -/
def numeral (base : Nat) (ds : List Char) : Nat := Nat.ofDigits base (ds.map digitValue).reverse

/-- Whether a text is a whole number in base ten or sixteen, and which. -/
inductive IsLiteral : List Char → Nat → Prop
  | decimal {ds : List Char} (hne : ds ≠ []) (hds : ∀ c ∈ ds, c.isDigit = true) :
      IsLiteral ds (numeral 10 ds)
  | hex {x : Char} {ds : List Char} (hx : x = 'x' ∨ x = 'X') (hne : ds ≠ [])
      (hds : ∀ c ∈ ds, isHexDigit c = true) : IsLiteral ('0' :: x :: ds) (numeral 16 ds)

theorem numeral_concat (base : Nat) (ds : List Char) (c : Char) :
    numeral base (ds ++ [c]) = base * numeral base ds + digitValue c := by
  simp [numeral, Nat.ofDigits_cons, Nat.add_comm]

/-- Digits may be read one by one, by any test that gives their values. -/
theorem foldl_eq_numeral (base : Nat) {value : Char → Nat} {ds : List Char}
    (h : ∀ c ∈ ds, value c = digitValue c) :
    ds.foldl (fun n c => base * n + value c) 0 = numeral base ds := by
  induction ds using List.reverseRecOn with
  | nil => rfl
  | append_singleton ds c ih =>
    have hds : ∀ d ∈ ds, value d = digitValue d := fun d hd => h d (List.mem_append_left _ hd)
    rw [List.foldl_append, ih hds, numeral_concat, ← h c (by simp)]
    rfl

theorem toNat_of_isDigit {c : Char} (h : c.isDigit = true) : 48 ≤ c.toNat ∧ c.toNat ≤ 57 := by
  simpa [Char.isDigit, UInt32.le_iff_toNat_le] using h

theorem digitValue_of_isDigit {c : Char} (h : c.isDigit = true) :
    c.toNat - '0'.toNat = digitValue c := by
  obtain ⟨hle, hge⟩ := toNat_of_isDigit h
  rw [← Char.ofNat_toNat c]
  generalize c.toNat = n at hle hge
  interval_cases n <;> decide

theorem digitValue_of_isHexDigit {c : Char} (h : isHexDigit c = true) :
    hexDigitValue c = digitValue c := by
  unfold hexDigitValue
  split
  · next hdigit => exact digitValue_of_isDigit hdigit
  · next hdigit =>
    have hletter : 97 ≤ c.toNat ∧ c.toNat ≤ 102 ∨ 65 ≤ c.toNat ∧ c.toNat ≤ 70 := by
      simpa [isHexDigit, hdigit, Char.le_def, UInt32.le_iff_toNat_le] using h
    rw [← Char.ofNat_toNat c]
    generalize c.toNat = n at hletter
    rcases hletter with ⟨hle, hge⟩ | ⟨hle, hge⟩
    · interval_cases n <;> decide
    · interval_cases n <;> decide

theorem ofDigitChars_eq {ds : List Char} (h : ∀ c ∈ ds, c.isDigit = true) :
    Nat.ofDigitChars 10 ds 0 = numeral 10 ds :=
  foldl_eq_numeral 10 fun c hc => digitValue_of_isDigit (h c hc)

theorem ofHexDigits_eq {ds : List Char} (h : ∀ c ∈ ds, isHexDigit c = true) :
    ofHexDigits ds = numeral 16 ds :=
  foldl_eq_numeral 16 fun c hc => digitValue_of_isHexDigit (h c hc)

/-! ## Literals as tokens -/

namespace Token

/-- A digit or the end of a word behind a zero is no `x`, so no digits of base sixteen follow. -/
theorem hexDigitsAfterZero_eq_nil {cs : List Char}
    (h : ∀ d, cs.head? = some d → d.isDigit = true ∨ isNameChar d = false) :
    hexDigitsAfterZero cs = [] := by
  cases cs with
  | nil => rfl
  | cons x cs =>
    have hx := h x rfl
    refine if_neg ?_
    rw [Bool.or_eq_true, decide_eq_true_eq, decide_eq_true_eq]
    rintro (rfl | rfl)
    · exact absurd hx (by decide)
    · exact absurd hx (by decide)

theorem read_decimal {c : Char} {cs : List Char} (h : ∀ d ∈ c :: cs, d.isDigit = true) :
    read c cs = (ofNumber .decimal (numeral 10 (c :: cs)) (c :: cs), cs.length) := by
  obtain ⟨hc, hcs⟩ := List.forall_mem_cons.mp h
  have htake : cs.takeWhile Char.isDigit = cs := List.takeWhile_eq_self_iff.mpr hcs
  have hdrop : cs.dropWhile Char.isDigit = [] := List.dropWhile_eq_nil_iff.mpr hcs
  have hhex : (if c = '0' then hexDigitsAfterZero cs else []) = [] := by
    rw [hexDigitsAfterZero_eq_nil fun d hd => Or.inl (hcs d (List.mem_of_head? hd)), ite_self]
  rw [read_of_isDigit hc, readNumber]
  simp only [hhex, htake, hdrop, digitsAfterPoint, ne_eq, not_true_eq_false, if_false,
    ofDigitChars_eq h]

/-- Behind `0x` the reader takes the digits of base sixteen, if there is one. -/
theorem readNumber_of_hexDigits {x : Char} {cs ds : List Char} (hx : x = 'x' ∨ x = 'X')
    (hds : cs.takeWhile isHexDigit = ds) (hne : ds ≠ []) :
    readNumber '0' (x :: cs) =
      (ofNumber .hex (numeral 16 ds) ('0' :: x :: ds), (x :: ds).length) := by
  have hhex : hexDigitsAfterZero (x :: cs) = ds := by
    rw [hexDigitsAfterZero, if_pos (by simpa using hx), hds]
  have hdigits : ∀ d ∈ ds, isHexDigit d = true := by
    intro d hd
    rw [← hds] at hd
    exact List.mem_takeWhile_imp hd
  have htake : cs.take ds.length = ds := by
    rw [← hds]
    exact (List.prefix_iff_eq_take.mp (List.takeWhile_prefix isHexDigit)).symm
  simp only [readNumber, if_true, hhex, ne_eq, hne, not_false_eq_true, ofHexDigits_eq hdigits,
    List.take_succ_cons, htake, List.length_cons]

theorem read_hex {x : Char} {ds : List Char} (hx : x = 'x' ∨ x = 'X') (hne : ds ≠ [])
    (h : ∀ d ∈ ds, isHexDigit d = true) :
    read '0' (x :: ds) =
      (ofNumber .hex (numeral 16 ds) ('0' :: x :: ds), (x :: ds).length) := by
  rw [read_of_isDigit (by decide),
    readNumber_of_hexDigits hx (List.takeWhile_eq_self_iff.mpr h) hne]

end Token

namespace IsLiteral

variable {text : List Char} {n : Nat}

theorem exists_cons (h : IsLiteral text n) : ∃ c cs, text = c :: cs ∧ c.isDigit = true := by
  cases h with
  | decimal hne hds =>
    obtain ⟨c, cs, rfl⟩ := List.exists_cons_of_ne_nil hne
    exact ⟨c, cs, rfl, hds c List.mem_cons_self⟩
  | hex => exact ⟨_, _, rfl, by decide⟩

/-- A literal is one token: that of its number, if the number has at most 64 bits. -/
theorem tokenize_eq (h : IsLiteral text n) :
    ∃ make, (make = Token.decimal ∨ make = Token.hex) ∧
      tokenize text = [⟨Token.ofNumber make n text, ⟨0, Text.byteLength text⟩⟩] := by
  have hone : ∀ {c : Char} {cs : List Char} {token : Token}, c.isDigit = true →
      Token.read c cs = (token, cs.length) →
      tokenize (c :: cs) = [⟨token, ⟨0, Text.byteLength (c :: cs)⟩⟩] := by
    intro c cs token hc hread
    have hseparator := Token.isSeparator_eq_false (p := Char.isDigit) (by decide) (by decide) hc
    rw [tokenize, Token.scan_whole 0 hseparator hread, Nat.zero_add]
  cases h with
  | decimal hne hds =>
    obtain ⟨c, cs, rfl⟩ := List.exists_cons_of_ne_nil hne
    exact ⟨_, Or.inl rfl, hone (hds c List.mem_cons_self) (Token.read_decimal hds)⟩
  | hex hx hne hds => exact ⟨_, Or.inr rfl, hone (by decide) (Token.read_hex hx hne hds)⟩

/-- A literal of at most 64 bits is read as its number. -/
theorem parse_of_lt (h : IsLiteral text n) (hn : n < Token.numberLimit) :
    InstructionOperand.parse text = .ok (.integer n) := by
  obtain ⟨make, hmake, htokens⟩ := h.tokenize_eq
  rw [InstructionOperand.parse, htokens, Token.ofNumber, if_pos hn]
  rcases hmake with rfl | rfl
  · rfl
  · rfl

/-- A literal with more bits is not read. -/
theorem parse_of_le (h : IsLiteral text n) (hn : Token.numberLimit ≤ n) :
    ∃ failure, InstructionOperand.parse text = .error failure := by
  obtain ⟨make, -, htokens⟩ := h.tokenize_eq
  rw [InstructionOperand.parse, htokens, Token.ofNumber, if_neg (Nat.not_lt.mpr hn)]
  exact ⟨_, rfl⟩

end IsLiteral

end LinkAsm
