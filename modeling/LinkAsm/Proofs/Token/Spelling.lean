import Mathlib
import LinkAsm.Proofs.Token.Literals

/-!
# Tokens as they are written

`Token.text` writes a token.  Read again, the text is that token, if the token is one that the
reader makes (`Token.Proper`) and what follows does not go on with it (`Token.EndsBefore`): a letter
goes on with a name, a digit or a point with a number, and a second `$` with the first.  All other
tokens end by themselves.

* `tokensOf`: the tokens of a text without their places, which do not depend on where the text
  starts.
* `Token.proper_of_mem_tokenize`: the reader makes proper tokens.
* `Token.Stops`: text that goes on with no token.
* `Token.tokensOf_text_append`: a proper token is read as it is written.
-/

namespace LinkAsm

/-! ## Tokens without their places -/

/-- The tokens of a text without their places. -/
def tokensOf (text : List Char) : List Token := (tokenize text).map (·.token)

namespace Token

theorem map_scan (p q : Nat) (cs : List Char) :
    (scan p cs).map (·.token) = (scan q cs).map (·.token) := by
  fun_induction scan p cs generalizing q with
  | case1 p => rw [scan]
  | case2 p c cs hc ih => rw [scan, if_pos hc, ih]
  | case3 p c cs hc token taken hread stop ih =>
    rw [scan_cons q (Bool.eq_false_iff.mpr hc) hread, List.map_cons, List.map_cons, ih]

theorem tokensOf_nil : tokensOf [] = [] := by
  rw [tokensOf, tokenize, scan, List.map_nil]

theorem tokensOf_separator {c : Char} (cs : List Char) (hc : isSeparator c = true) :
    tokensOf (c :: cs) = tokensOf cs := by
  rw [tokensOf, tokenize, scan, if_pos hc]
  exact map_scan _ 0 cs

theorem tokensOf_cons {c : Char} {cs : List Char} {token : Token} {taken : Nat}
    (hc : isSeparator c = false) (h : read c cs = (token, taken)) :
    tokensOf (c :: cs) = token :: tokensOf (cs.drop taken) := by
  rw [tokensOf, tokenize, scan_cons 0 hc h, List.map_cons]
  exact congrArg _ (map_scan _ 0 _)

/-- A token that takes the first part of a text is followed by those of the second. -/
theorem tokensOf_append {c : Char} {cs rest : List Char} {token : Token}
    (hc : isSeparator c = false) (h : read c (cs ++ rest) = (token, cs.length)) :
    tokensOf (c :: cs ++ rest) = token :: tokensOf rest := by
  rw [List.cons_append, tokensOf_cons hc h, List.drop_left]

/-! ## Proper tokens -/

/-- Whether a text is a number of digits, at least one. -/
def IsDigits (cs : List Char) : Prop := cs ≠ [] ∧ ∀ c ∈ cs, c.isDigit = true

/-- Whether a token is one that the reader makes. -/
def Proper : Token → Prop
  | .hex n | .decimal n => n < numberLimit
  | .float whole part => IsDigits whole.toList ∧ IsDigits part.toList
  | .name s => isName s.toList = true ∧ s ≠ "as"
  | .quoted s => quotedLength s.toList = s.toList.length
  | _ => True

theorem proper_ofNumber {make : Nat → Token} {n : Nat} (source : List Char)
    (h : n < numberLimit → (make n).Proper) : (ofNumber make n source).Proper := by
  unfold ofNumber
  split
  · next hn => exact h hn
  · trivial

theorem isDigit_of_mem_digitsAfterPoint {cs : List Char} {d : Char}
    (h : d ∈ digitsAfterPoint cs) : d.isDigit = true := by
  unfold digitsAfterPoint at h
  split at h
  · exact List.mem_takeWhile_imp h
  · cases h

theorem proper_readNumber {c : Char} (cs : List Char) (hc : c.isDigit = true) :
    (readNumber c cs).1.Proper := by
  have hwhole : ∀ d ∈ c :: cs.takeWhile Char.isDigit, d.isDigit = true :=
    List.forall_mem_cons.mpr ⟨hc, fun _ hd => List.mem_takeWhile_imp hd⟩
  simp only [readNumber]
  generalize (if c = '0' then hexDigitsAfterZero cs else []) = hexDigits
  split
  · exact proper_ofNumber _ id
  · split
    · next hpart =>
      simp only [Proper, IsDigits, String.toList_ofList]
      exact ⟨⟨List.cons_ne_nil _ _, hwhole⟩, hpart, fun _ => isDigit_of_mem_digitsAfterPoint⟩
    · exact proper_ofNumber _ id

theorem proper_readName {c : Char} (cs : List Char) (hc : isNameStart c = true) :
    (readName c cs).1.Proper := by
  simp only [readName]
  split
  · trivial
  · next hword =>
    refine ⟨?_, ?_⟩
    · rw [String.toList_ofList, isName, hc, Bool.true_and]
      exact List.all_takeWhile
    · intro has
      exact hword (String.ofList_inj.mp has)

theorem ne_backslash {c : Char} {cs : List Char} (hescape : ∀ d ds, c = '\\' → cs = d :: ds → False)
    (hend : c = '\\' → cs = [] → False) : c ≠ '\\' := by
  intro hc
  cases cs with
  | nil => exact hend hc rfl
  | cons d ds => exact hescape d ds hc rfl

theorem quotedLength_cons {c : Char} (cs : List Char) (hescape : c ≠ '\\') (hquote : c ≠ '"') :
    quotedLength (c :: cs) = quotedLength cs + 1 := by
  rw [quotedLength]
  · exact fun _ _ h _ => hescape h
  · exact fun h _ => hescape h
  · exact hquote

/-- Whether a text may stand between quotes: characters other than a quote and a backslash, and
backslashes with any character but a line break. -/
inductive IsQuotable : List Char → Prop
  | nil : IsQuotable []
  | plain {c : Char} {cs : List Char} (hescape : c ≠ '\\') (hquote : c ≠ '"')
      (h : IsQuotable cs) : IsQuotable (c :: cs)
  | escape {c : Char} {cs : List Char} (hc : c ≠ '\n') (h : IsQuotable cs) :
      IsQuotable ('\\' :: c :: cs)

/-- What the reader takes behind a quote may stand between quotes. -/
theorem isQuotable_take (cs : List Char) : IsQuotable (cs.take (quotedLength cs)) := by
  fun_induction quotedLength cs with
  | case1 cs => exact IsQuotable.nil
  | case2 c cs hc ih => exact IsQuotable.escape hc ih
  | case3 => exact IsQuotable.nil
  | case4 => exact IsQuotable.nil
  | case5 c cs hescape hend hquote ih =>
    exact IsQuotable.plain (ne_backslash hescape hend) hquote ih
  | case6 => exact IsQuotable.nil

theorem IsQuotable.quotedLength_append {cs : List Char} (h : IsQuotable cs) (rest : List Char) :
    quotedLength (cs ++ rest) = cs.length + quotedLength rest := by
  induction h with
  | nil => exact (Nat.zero_add _).symm
  | @plain c cs hescape hquote h ih =>
    rw [List.cons_append, quotedLength_cons _ hescape hquote, ih, List.length_cons]
    omega
  | @escape c cs hc h ih =>
    rw [List.cons_append, List.cons_append, quotedLength, if_neg hc, ih, List.length_cons,
      List.length_cons]
    omega

/-- A text may stand between quotes if the reader takes all of it. -/
theorem isQuotable_iff {cs : List Char} : IsQuotable cs ↔ quotedLength cs = cs.length := by
  constructor
  · intro h
    have happend := h.quotedLength_append []
    rwa [List.append_nil, quotedLength, Nat.add_zero] at happend
  · intro h
    have htake := isQuotable_take cs
    rwa [h, List.take_length] at htake

theorem proper_readQuoted (cs : List Char) : (readQuoted cs).1.Proper := by
  simp only [readQuoted]
  split
  · show quotedLength _ = _
    rw [String.toList_ofList]
    exact isQuotable_iff.mp (isQuotable_take cs)
  · trivial

theorem proper_read (c : Char) (cs : List Char) : (read c cs).1.Proper := by
  unfold read
  split
  · next hc => exact proper_readNumber cs hc
  · split
    · next hc => exact proper_readName cs hc
    · split
      · exact proper_readQuoted cs
      · split
        · split <;> trivial
        · unfold ofChar?
          split <;> trivial

/-- The reader makes proper tokens. -/
theorem proper_of_mem_tokenize {text : List Char} {l : Lexeme} (h : l ∈ tokenize text) :
    l.token.Proper := by
  unfold tokenize at h
  generalize 0 = p at h
  fun_induction scan p text with
  | case1 => cases h
  | case2 p c cs hc ih => exact ih h
  | case3 p c cs hc token taken hread stop ih =>
    rcases List.mem_cons.mp h with rfl | hrest
    · have hproper := proper_read c cs
      rwa [hread] at hproper
    · exact ih hrest

/-! ## Reading what is written -/

/-- Whether a token ends where a text begins, so that the text does not go on with it.  Text that is
no token has no end of its own. -/
def EndsBefore (rest : List Char) : Token → Prop
  | .unrecognised _ => False
  | .dollar => rest.head? ≠ some '$'
  | .asWord | .hex _ | .decimal _ | .float _ _ | .name _ =>
    ∀ c, rest.head? = some c → isNameChar c = false ∧ c ≠ '.'
  | _ => True

/-- Whether no token goes on with a text. -/
def Stops (rest : List Char) : Prop :=
  ∀ c, rest.head? = some c → isNameChar c = false ∧ c ≠ '.' ∧ c ≠ '$'

theorem stops_nil : Stops [] := by
  intro c hc
  cases hc

theorem stops_cons {c : Char} (rest : List Char)
    (h : isNameChar c = false ∧ c ≠ '.' ∧ c ≠ '$') : Stops (c :: rest) := by
  intro d hd
  obtain rfl := Option.some.inj hd
  exact h

theorem Stops.endsBefore {rest : List Char} (h : Stops rest) {t : Token}
    (ht : ∀ s, t ≠ .unrecognised s) : t.EndsBefore rest := by
  have hword : ∀ c, rest.head? = some c → isNameChar c = false ∧ c ≠ '.' := fun c hc =>
    ⟨(h c hc).1, (h c hc).2.1⟩
  cases t with
  | unrecognised s => exact absurd rfl (ht s)
  | dollar => exact fun hdollar => (h '$' hdollar).2.2 rfl
  | asWord | hex n | decimal n | float whole part | name s => exact hword
  | _ => trivial

theorem takeWhile_append_stop {p : Char → Bool} {cs rest : List Char} (hcs : ∀ c ∈ cs, p c = true)
    (hrest : ∀ c, rest.head? = some c → p c = false) : (cs ++ rest).takeWhile p = cs := by
  rw [List.takeWhile_append_of_pos hcs]
  cases rest with
  | nil => simp
  | cons c rest => rw [List.takeWhile_cons_of_neg (by simp [hrest c rfl]), List.append_nil]

theorem dropWhile_append_stop {p : Char → Bool} {cs rest : List Char} (hcs : ∀ c ∈ cs, p c = true)
    (hrest : ∀ c, rest.head? = some c → p c = false) : (cs ++ rest).dropWhile p = rest := by
  rw [List.dropWhile_append_of_pos hcs]
  cases rest with
  | nil => rfl
  | cons c rest => rw [List.dropWhile_cons_of_neg (by simp [hrest c rfl])]

theorem isNameChar_of_isDigit {c : Char} (h : c.isDigit = true) : isNameChar c = true := by
  simp [isNameChar, Char.isAlphanum, h]

theorem isNameChar_of_isHexDigit {c : Char} (h : isHexDigit c = true) : isNameChar c = true := by
  simp only [isHexDigit, isNameChar, Char.isAlphanum, Char.isAlpha, Char.isUpper, Char.isLower,
    Char.le_def, UInt32.le_iff_toNat_le, Bool.or_eq_true, Bool.and_eq_true, decide_eq_true_eq,
    ge_iff_le] at h ⊢
  have hf : 'f'.val.toNat = 102 := rfl
  have hz : 'z'.val.toNat = 122 := rfl
  have hF : 'F'.val.toNat = 70 := rfl
  have hZ : 'Z'.val.toNat = 90 := rfl
  rcases h with (hdigit | hsmall) | hcapital
  · exact Or.inl (Or.inr hdigit)
  · exact Or.inl (Or.inl (Or.inr (by omega)))
  · exact Or.inl (Or.inl (Or.inl (by omega)))

/-- Characters that do not go on with a name do not go on with digits either. -/
theorem eq_false_of_isNameChar {p : Char → Bool} (hp : ∀ c, p c = true → isNameChar c = true)
    {c : Char} (h : isNameChar c = false) : p c = false :=
  Bool.eq_false_iff.mpr fun hc => Bool.false_ne_true (h.symm.trans (hp c hc))

variable {c : Char} {cs rest : List Char}

theorem isDigit_head?_eq_false (h : ∀ d, rest.head? = some d → isNameChar d = false) :
    ∀ d, rest.head? = some d → d.isDigit = false := fun d hd =>
  eq_false_of_isNameChar (fun _ => isNameChar_of_isDigit) (h d hd)

/-- A point ends a run of letters or digits. -/
theorem isNameChar_head?_point (cs : List Char) :
    ∀ d, ('.' :: cs).head? = some d → isNameChar d = false := by
  intro d hd
  obtain rfl := Option.some.inj hd
  decide

theorem readName_append (hcs : ∀ d ∈ cs, isNameChar d = true)
    (hrest : ∀ d, rest.head? = some d → isNameChar d = false) :
    readName c (cs ++ rest) =
      (if c :: cs = ['a', 's'] then .asWord else .name (String.ofList (c :: cs)), cs.length) := by
  rw [readName]
  simp only [takeWhile_append_stop hcs hrest]

theorem digitsAfterPoint_eq_nil (h : ∀ d, cs.head? = some d → d ≠ '.') :
    digitsAfterPoint cs = [] := by
  unfold digitsAfterPoint
  split
  · exact absurd rfl (h _ rfl)
  · rfl

/-- Digits are no prefix of a number of base sixteen, if what follows is no letter. -/
theorem hexDigitsAfterZero_append (hcs : ∀ d ∈ cs, d.isDigit = true)
    (hrest : ∀ d, rest.head? = some d → isNameChar d = false) :
    hexDigitsAfterZero (cs ++ rest) = [] := by
  apply hexDigitsAfterZero_eq_nil
  intro d hd
  cases cs with
  | nil => exact Or.inr (hrest d hd)
  | cons e cs =>
    obtain rfl := Option.some.inj hd
    exact Or.inl (hcs e List.mem_cons_self)

theorem readNumber_decimal (h : ∀ d ∈ c :: cs, d.isDigit = true)
    (hrest : ∀ d, rest.head? = some d → isNameChar d = false ∧ d ≠ '.') :
    readNumber c (cs ++ rest) =
      (ofNumber .decimal (Nat.ofDigitChars 10 (c :: cs) 0) (c :: cs), cs.length) := by
  obtain ⟨hc, hcs⟩ := List.forall_mem_cons.mp h
  have hword : ∀ d, rest.head? = some d → isNameChar d = false := fun d hd => (hrest d hd).1
  have hstop := isDigit_head?_eq_false hword
  simp only [readNumber, takeWhile_append_stop hcs hstop, dropWhile_append_stop hcs hstop,
    hexDigitsAfterZero_append hcs hword,
    digitsAfterPoint_eq_nil fun d hd => (hrest d hd).2, ite_self, ne_eq, not_true_eq_false,
    if_false]

theorem readNumber_float {part : List Char} (h : ∀ d ∈ c :: cs, d.isDigit = true)
    (hpart : IsDigits part) (hrest : ∀ d, rest.head? = some d → isNameChar d = false) :
    readNumber c (cs ++ '.' :: (part ++ rest)) =
      (.float (String.ofList (c :: cs)) (String.ofList part), cs.length + 1 + part.length) := by
  obtain ⟨hc, hcs⟩ := List.forall_mem_cons.mp h
  have hpoint := isNameChar_head?_point (part ++ rest)
  have hstop := isDigit_head?_eq_false hpoint
  have hafter : digitsAfterPoint ('.' :: (part ++ rest)) = part :=
    takeWhile_append_stop hpart.2 (isDigit_head?_eq_false hrest)
  simp only [readNumber, takeWhile_append_stop hcs hstop, dropWhile_append_stop hcs hstop,
    hexDigitsAfterZero_append hcs hpoint, hafter, ite_self, ne_eq, not_true_eq_false, if_false,
    hpart.1, not_false_eq_true, if_true]

theorem readNumber_hex {ds : List Char} (hne : ds ≠ []) (hds : ∀ d ∈ ds, isHexDigit d = true)
    (hrest : ∀ d, rest.head? = some d → isNameChar d = false) :
    readNumber '0' ('x' :: (ds ++ rest)) =
      (ofNumber .hex (ofHexDigits ds) ('0' :: 'x' :: ds), ds.length + 1) := by
  have htake : (ds ++ rest).takeWhile isHexDigit = ds :=
    takeWhile_append_stop hds fun d hd =>
      eq_false_of_isNameChar (fun _ => isNameChar_of_isHexDigit) (hrest d hd)
  rw [readNumber_of_hexDigits (Or.inl rfl) htake hne, ofHexDigits_eq hds, List.length_cons]

theorem readQuoted_append (h : quotedLength cs = cs.length) :
    readQuoted (cs ++ '"' :: rest) = (.quoted (String.ofList cs), cs.length + 1) := by
  have hlength : quotedLength (cs ++ '"' :: rest) = cs.length :=
    (isQuotable_iff.mpr h).quotedLength_append ('"' :: rest)
  simp only [readQuoted, hlength, List.drop_left, List.take_left, List.head?_cons, if_true]

/-! ## Digits of numbers -/

theorem hexDigitValue_digitChar {d : Nat} (h : d < 16) :
    isHexDigit d.digitChar.toUpper = true ∧ hexDigitValue d.digitChar.toUpper = d := by
  interval_cases d <;> decide

theorem hexDigits_ne_nil (n : Nat) : Text.hexDigits n ≠ [] := by
  simp [Text.hexDigits, Nat.toDigits_ne_nil]

/-- The digits of base sixteen are those of the number without its last one, and the last one. -/
theorem hexDigits_eq_if (n : Nat) :
    Text.hexDigits n =
      (if n < 16 then [] else Text.hexDigits (n / 16)) ++ [(n % 16).digitChar.toUpper] := by
  unfold Text.hexDigits
  rw [Nat.toDigits_eq_if (by decide)]
  split
  · next h => rw [Nat.mod_eq_of_lt h]; rfl
  · rw [List.map_append]; rfl

theorem isHexDigit_hexDigits (n : Nat) : ∀ c ∈ Text.hexDigits n, isHexDigit c = true := by
  induction n using Nat.strongRecOn with
  | ind n ih =>
    intro c hc
    rw [hexDigits_eq_if, List.mem_append] at hc
    rcases hc with hfirst | hlast
    · split at hfirst
      · cases hfirst
      · exact ih (n / 16) (by omega) c hfirst
    · rw [List.mem_singleton.mp hlast]
      exact (hexDigitValue_digitChar (Nat.mod_lt n (by decide))).1

theorem ofHexDigits_hexDigits (n : Nat) : ofHexDigits (Text.hexDigits n) = n := by
  induction n using Nat.strongRecOn with
  | ind n ih =>
    have hlast := (hexDigitValue_digitChar (Nat.mod_lt n (show 16 > 0 by decide))).2
    rw [hexDigits_eq_if, ofHexDigits, List.foldl_append, List.foldl_cons, List.foldl_nil, hlast]
    split
    · next h => rw [List.foldl_nil]; omega
    · rw [← ofHexDigits, ih (n / 16) (by omega)]
      omega

theorem text_hex (n : Nat) : (Token.hex n).text.toList = '0' :: 'x' :: Text.hexDigits n := by
  have hlength : 1 - (Text.hexDigits n).length = 0 := by
    have := List.length_pos_of_ne_nil (hexDigits_ne_nil n)
    omega
  simp [text, Text.hex, hlength]

theorem exists_text_decimal (n : Nat) :
    ∃ c cs, (Token.decimal n).text.toList = c :: cs ∧ (∀ d ∈ c :: cs, d.isDigit = true) ∧
      Nat.ofDigitChars 10 (c :: cs) 0 = n := by
  have htext : (Token.decimal n).text.toList = Nat.toDigits 10 n := Nat.toList_repr
  obtain ⟨c, cs, hcs⟩ := List.exists_cons_of_ne_nil (Nat.toDigits_ne_nil (n := n) (b := 10))
  refine ⟨c, cs, htext.trans hcs, ?_, ?_⟩
  · rw [← hcs]
    exact fun d hd => Nat.isDigit_of_mem_toDigits (by decide) (by decide) hd
  · rw [← hcs, Nat.ofDigitChars_toDigits (by decide) (by decide)]

/-! ## Tokens in front of text -/

theorem tokensOf_digit {token : Token} (hc : c.isDigit = true)
    (h : readNumber c (cs ++ rest) = (token, cs.length)) :
    tokensOf (c :: cs ++ rest) = token :: tokensOf rest :=
  tokensOf_append (isSeparator_eq_false (by decide) (by decide) hc)
    ((read_of_isDigit hc _).trans h)

theorem tokensOf_letter {token : Token} (hc : isNameStart c = true)
    (h : readName c (cs ++ rest) = (token, cs.length)) :
    tokensOf (c :: cs ++ rest) = token :: tokensOf rest :=
  tokensOf_append (isSeparator_eq_false (by decide) (by decide) hc)
    ((read_of_isNameStart hc _).trans h)

theorem read_of_ofChar? {token : Token} (h : ofChar? c = some token) (cs : List Char) :
    read c cs = (token, 0) := by
  unfold ofChar? at h
  split at h
  case h_13 => cases h
  all_goals
    obtain rfl := Option.some.inj h
    rfl

theorem isSeparator_of_ofChar? {token : Token} (h : ofChar? c = some token) :
    isSeparator c = false := by
  refine isSeparator_eq_false (p := fun c => (ofChar? c).isSome) (by decide) (by decide) ?_
  rw [h, Option.isSome_some]

theorem tokensOf_char {token : Token} (h : ofChar? c = some token) :
    tokensOf (c :: rest) = token :: tokensOf rest :=
  tokensOf_cons (isSeparator_of_ofChar? h) (read_of_ofChar? h rest)

theorem tokensOf_dollar (h : rest.head? ≠ some '$') :
    tokensOf ('$' :: rest) = .dollar :: tokensOf rest :=
  tokensOf_cons (by decide) (show read '$' rest = (.dollar, 0) from if_neg h)

theorem tokensOf_doubleDollar : tokensOf ('$' :: '$' :: rest) = .doubleDollar :: tokensOf rest :=
  tokensOf_cons (by decide) (show read '$' ('$' :: rest) = (.doubleDollar, 1) from rfl)

theorem tokensOf_name {s : String} (h : isName s.toList = true) (has : s ≠ "as")
    (hrest : ∀ d, rest.head? = some d → isNameChar d = false) :
    tokensOf (s.toList ++ rest) = .name s :: tokensOf rest := by
  cases hcs : s.toList with
  | nil =>
    rw [hcs] at h
    cases h
  | cons c cs =>
    rw [hcs, isName, Bool.and_eq_true_iff] at h
    obtain ⟨hc, htail⟩ := h
    have hword : c :: cs ≠ ['a', 's'] := by
      intro heq
      exact has (String.toList_inj.mp (hcs.trans heq))
    refine tokensOf_letter hc ?_
    rw [readName_append (List.all_eq_true.mp htail) hrest, if_neg hword, ← hcs,
      String.ofList_toList]

theorem tokensOf_asWord (hrest : ∀ d, rest.head? = some d → isNameChar d = false) :
    tokensOf (['a', 's'] ++ rest) = .asWord :: tokensOf rest := by
  have htail : ∀ d ∈ ['s'], isNameChar d = true := by
    intro d hd
    rw [List.mem_singleton.mp hd]
    decide
  refine tokensOf_letter (by decide) ?_
  rw [readName_append htail hrest, if_pos rfl]

theorem tokensOf_decimal {n : Nat} (h : n < numberLimit)
    (hrest : ∀ d, rest.head? = some d → isNameChar d = false ∧ d ≠ '.') :
    tokensOf ((Token.decimal n).text.toList ++ rest) = .decimal n :: tokensOf rest := by
  obtain ⟨c, cs, htext, hdigits, hvalue⟩ := exists_text_decimal n
  rw [htext]
  refine tokensOf_digit (hdigits c List.mem_cons_self) ?_
  rw [readNumber_decimal hdigits hrest, hvalue, ofNumber, if_pos h]

theorem tokensOf_hex {n : Nat} (h : n < numberLimit)
    (hrest : ∀ d, rest.head? = some d → isNameChar d = false) :
    tokensOf ((Token.hex n).text.toList ++ rest) = .hex n :: tokensOf rest := by
  rw [text_hex]
  refine tokensOf_digit (by decide) ?_
  rw [List.cons_append, readNumber_hex (hexDigits_ne_nil n) (isHexDigit_hexDigits n) hrest,
    ofHexDigits_hexDigits, ofNumber, if_pos h, List.length_cons]

theorem tokensOf_float {whole part : String} (hwhole : IsDigits whole.toList)
    (hpart : IsDigits part.toList) (hrest : ∀ d, rest.head? = some d → isNameChar d = false) :
    tokensOf ((Token.float whole part).text.toList ++ rest) =
      .float whole part :: tokensOf rest := by
  obtain ⟨hne, hdigits⟩ := hwhole
  obtain ⟨c, cs, hcs⟩ := List.exists_cons_of_ne_nil hne
  have htext : (Token.float whole part).text.toList = c :: (cs ++ '.' :: part.toList) := by
    simp [text, String.toList_append, hcs]
  have hlength : (cs ++ '.' :: part.toList).length = cs.length + 1 + part.toList.length := by
    rw [List.length_append, List.length_cons]
    omega
  rw [hcs] at hdigits
  rw [htext]
  refine tokensOf_digit (hdigits c List.mem_cons_self) ?_
  rw [List.append_assoc, List.cons_append, readNumber_float hdigits hpart hrest, hlength, ← hcs,
    String.ofList_toList, String.ofList_toList]

theorem tokensOf_quoted {s : String} (h : quotedLength s.toList = s.toList.length) :
    tokensOf ((Token.quoted s).text.toList ++ rest) = .quoted s :: tokensOf rest := by
  have htext : (Token.quoted s).text.toList = '"' :: (s.toList ++ ['"']) := by
    simp [text, quotedText, String.toList_append]
  rw [htext]
  refine tokensOf_append (by decide) ?_
  show readQuoted _ = _
  rw [List.append_assoc, List.singleton_append, readQuoted_append h, String.ofList_toList,
    List.length_append, List.length_singleton]

/-- A proper token is read as it is written, where what follows does not go on with it. -/
theorem tokensOf_text_append {t : Token} (ht : t.Proper) (hrest : t.EndsBefore rest) :
    tokensOf (t.text.toList ++ rest) = t :: tokensOf rest := by
  cases t with
  | unrecognised s => exact hrest.elim
  | leftBrace => exact tokensOf_char (c := '\x7b') rfl
  | rightBrace => exact tokensOf_char (c := '\x7d') rfl
  | plus => exact tokensOf_char (c := '+') rfl
  | minus => exact tokensOf_char (c := '-') rfl
  | asterisk => exact tokensOf_char (c := '*') rfl
  | solidus => exact tokensOf_char (c := '/') rfl
  | caret => exact tokensOf_char (c := '^') rfl
  | colon => exact tokensOf_char (c := ':') rfl
  | equals => exact tokensOf_char (c := '=') rfl
  | dot => exact tokensOf_char (c := '.') rfl
  | hash => exact tokensOf_char (c := '#') rfl
  | dollar => exact tokensOf_dollar hrest
  | doubleDollar => exact tokensOf_doubleDollar
  | atSign => exact tokensOf_char (c := '@') rfl
  | asWord => exact tokensOf_asWord fun d hd => (hrest d hd).1
  | hex n => exact tokensOf_hex ht fun d hd => (hrest d hd).1
  | decimal n => exact tokensOf_decimal ht hrest
  | float whole part => exact tokensOf_float ht.1 ht.2 fun d hd => (hrest d hd).1
  | name s => exact tokensOf_name ht.1 ht.2 fun d hd => (hrest d hd).1
  | quoted s => exact tokensOf_quoted ht

end Token

end LinkAsm
