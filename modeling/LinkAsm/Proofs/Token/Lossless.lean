import Mathlib
import LinkAsm.Proofs.Token.Places
import LinkAsm.Proofs.Token.Spelling

/-!
# Nothing is lost between the tokens

A pattern says which texts are tokens by themselves, whatever stands behind them (`Token.Matches`).
Text that is no token has patterns too: a number that has too many bits, a quote with what it might
have quoted, and one character that starts nothing else.  At each place the reader takes the longest
text that matches, so the text of a token is read as this token again, and what stands between two
tokens are spaces and tabs.

* `Token.Matches.tokenize_eq`: a text that matches is one token.
* `Token.matches_read`: what the reader takes is the longest match.
* `tokenize_lossless`: the tokens of a text, their texts and the gaps between them.
-/

namespace LinkAsm

namespace Token

/-! ## Patterns -/

/-- Whether a character neither starts a token nor separates tokens. -/
structure IsStray (c : Char) : Prop where
  digit : c.isDigit = false
  letter : isNameStart c = false
  quote : c ≠ '"'
  dollar : c ≠ '$'
  char : ofChar? c = none
  separator : isSeparator c = false

/-- Whether a text is a token by itself, and which. -/
inductive Matches : Token → List Char → Prop
  | char {c : Char} {t : Token} (h : ofChar? c = some t) : Matches t [c]
  | dollar : Matches .dollar ['$']
  | doubleDollar : Matches .doubleDollar ['$', '$']
  | hex {x : Char} {ds : List Char} (hx : x = 'x' ∨ x = 'X') (hne : ds ≠ [])
      (hds : ∀ d ∈ ds, isHexDigit d = true) :
      Matches (ofNumber .hex (numeral 16 ds) ('0' :: x :: ds)) ('0' :: x :: ds)
  | decimal {ds : List Char} (h : IsDigits ds) :
      Matches (ofNumber .decimal (numeral 10 ds) ds) ds
  | float {whole part : List Char} (hwhole : IsDigits whole) (hpart : IsDigits part) :
      Matches (.float (String.ofList whole) (String.ofList part)) (whole ++ '.' :: part)
  | asWord : Matches .asWord ['a', 's']
  | name {cs : List Char} (h : isName cs = true) (has : cs ≠ ['a', 's']) :
      Matches (.name (String.ofList cs)) cs
  | quoted {cs : List Char} (h : IsQuotable cs) :
      Matches (.quoted (String.ofList cs)) ('"' :: (cs ++ ['"']))
  | unclosed {cs : List Char} (h : IsQuotable cs) :
      Matches (.unrecognised (String.ofList ('"' :: cs))) ('"' :: cs)
  | stray {c : Char} (h : IsStray c) : Matches (.unrecognised (String.singleton c)) [c]

variable {c : Char} {cs ds rest : List Char} {t : Token}

/-! ## A text that matches is one token -/

theorem IsStray.read_eq (h : IsStray c) (cs : List Char) :
    read c cs = (.unrecognised (String.singleton c), 0) := by
  simp only [read, h.digit, h.letter, h.quote, h.dollar, h.char, Bool.false_eq_true, if_false,
    Option.getD_none]

theorem readNumber_of_isDigits {part : List Char} (h : ∀ d ∈ c :: cs, d.isDigit = true)
    (hpart : IsDigits part) :
    readNumber c (cs ++ '.' :: part) =
      (.float (String.ofList (c :: cs)) (String.ofList part), (cs ++ '.' :: part).length) := by
  have hfloat : readNumber c (cs ++ '.' :: (part ++ [])) = _ :=
    readNumber_float h hpart (by intro d hd; cases hd)
  rw [List.append_nil] at hfloat
  rw [hfloat, List.length_append, List.length_cons, Nat.add_assoc, Nat.add_comm 1]

/-- A text that matches starts with no separator, and the reader takes all of it. -/
theorem Matches.exists_read (h : Matches t ds) :
    ∃ c cs, ds = c :: cs ∧ isSeparator c = false ∧ read c cs = (t, cs.length) := by
  cases h with
  | char h => exact ⟨_, [], rfl, isSeparator_of_ofChar? h, read_of_ofChar? h []⟩
  | dollar => exact ⟨'$', [], rfl, by decide, rfl⟩
  | doubleDollar => exact ⟨'$', ['$'], rfl, by decide, rfl⟩
  | hex hx hne hds => exact ⟨'0', _, rfl, by decide, read_hex hx hne hds⟩
  | decimal h =>
    obtain ⟨c, cs, rfl⟩ := List.exists_cons_of_ne_nil h.1
    have hc := isSeparator_eq_false (by decide) (by decide) (h.2 c List.mem_cons_self)
    exact ⟨c, cs, rfl, hc, read_decimal h.2⟩
  | @float whole part hwhole hpart =>
    obtain ⟨c, cs, rfl⟩ := List.exists_cons_of_ne_nil hwhole.1
    have hc := hwhole.2 c List.mem_cons_self
    refine ⟨c, cs ++ '.' :: part, rfl, isSeparator_eq_false (by decide) (by decide) hc, ?_⟩
    rw [read_of_isDigit hc, readNumber_of_isDigits hwhole.2 hpart]
  | asWord => exact ⟨'a', ['s'], rfl, by decide, rfl⟩
  | name h has =>
    cases ds with
    | nil => cases h
    | cons c cs =>
      obtain ⟨hc, hcs⟩ := Bool.and_eq_true_iff.mp h
      exact ⟨c, cs, rfl, isSeparator_eq_false (by decide) (by decide) hc, read_name hc hcs has⟩
  | @quoted cs h =>
    refine ⟨'"', cs ++ ['"'], rfl, by decide, ?_⟩
    show readQuoted (cs ++ ['"']) = _
    rw [readQuoted_append (isQuotable_iff.mp h), List.length_append, List.length_singleton]
  | @unclosed cs h =>
    refine ⟨'"', cs, rfl, by decide, ?_⟩
    show readQuoted cs = _
    simp only [readQuoted, isQuotable_iff.mp h, List.drop_length, List.take_length, List.head?_nil,
      reduceCtorEq, if_false]
  | stray h => exact ⟨_, [], rfl, h.separator, h.read_eq []⟩

/-- A text that matches is one token. -/
theorem Matches.tokenize_eq (h : Matches t ds) :
    tokenize ds = [⟨t, ⟨0, Text.byteLength ds⟩⟩] := by
  obtain ⟨c, cs, rfl, hc, hread⟩ := h.exists_read
  rw [tokenize, scan_whole 0 hc hread, Nat.zero_add]

/-! ## What the reader takes matches -/

/-- Whether a reader's answer for a text behind a character is a token that matches. -/
def Answers (c : Char) (cs : List Char) (answer : Token × Nat) : Prop :=
  ∃ taken rest, cs = taken ++ rest ∧ answer.2 = taken.length ∧ Matches answer.1 (c :: taken)

theorem answers_readName (hc : isNameStart c = true) (cs : List Char) :
    Answers c cs (readName c cs) := by
  refine ⟨cs.takeWhile isNameChar, cs.dropWhile isNameChar,
    List.takeWhile_append_dropWhile.symm, rfl, ?_⟩
  simp only [readName]
  split
  · next hword =>
    rw [hword]
    exact Matches.asWord
  · next hword =>
    refine Matches.name ?_ hword
    rw [isName, hc, Bool.true_and]
    exact List.all_takeWhile

theorem quotedLength_le (cs : List Char) : quotedLength cs ≤ cs.length := by
  fun_induction quotedLength cs with
  | case1 cs => exact Nat.zero_le _
  | case2 c cs hc ih => exact Nat.add_le_add_right ih 2
  | case3 => exact Nat.zero_le _
  | case4 => exact Nat.zero_le _
  | case5 c cs hescape hend hquote ih => exact Nat.succ_le_succ ih
  | case6 => exact Nat.le_refl _

theorem answers_readQuoted (cs : List Char) : Answers '"' cs (readQuoted cs) := by
  have hquotable := isQuotable_take cs
  have hlength : (cs.take (quotedLength cs)).length = quotedLength cs :=
    List.length_take_of_le (quotedLength_le cs)
  simp only [readQuoted]
  split
  · next hclosed =>
    obtain ⟨rest, hrest⟩ := List.head?_eq_some_iff.mp hclosed
    refine ⟨cs.take (quotedLength cs) ++ ['"'], rest, ?_, ?_, Matches.quoted hquotable⟩
    · rw [List.append_assoc, List.singleton_append, ← hrest, List.take_append_drop]
    · rw [List.length_append, hlength, List.length_singleton]
  · exact ⟨cs.take (quotedLength cs), cs.drop (quotedLength cs), (List.take_append_drop _ _).symm,
      hlength.symm, Matches.unclosed hquotable⟩

theorem exists_of_hexDigitsAfterZero (h : hexDigitsAfterZero cs ≠ []) :
    ∃ x ds, cs = x :: ds ∧ (x = 'x' ∨ x = 'X') ∧
      hexDigitsAfterZero cs = ds.takeWhile isHexDigit := by
  cases cs with
  | nil => exact absurd rfl h
  | cons x ds =>
    rw [hexDigitsAfterZero] at h ⊢
    split at h
    · next hx => exact ⟨x, ds, rfl, by simpa using hx, if_pos hx⟩
    · exact absurd rfl h

theorem exists_of_digitsAfterPoint (h : digitsAfterPoint cs ≠ []) :
    ∃ ds, cs = '.' :: ds ∧ digitsAfterPoint cs = ds.takeWhile Char.isDigit := by
  unfold digitsAfterPoint at h ⊢
  split at h
  · exact ⟨_, rfl, rfl⟩
  · exact absurd rfl h

theorem answers_readNumber (hc : c.isDigit = true) (cs : List Char) :
    Answers c cs (readNumber c cs) := by
  have hdigits : IsDigits (c :: cs.takeWhile Char.isDigit) :=
    ⟨List.cons_ne_nil _ _, List.forall_mem_cons.mpr ⟨hc, fun _ hd => List.mem_takeWhile_imp hd⟩⟩
  -- the reader looks for base sixteen first, and for a point only without it
  by_cases hhex : (if c = '0' then hexDigitsAfterZero cs else []) = []
  · by_cases hpart : digitsAfterPoint (cs.dropWhile Char.isDigit) = []
    · simp only [readNumber, hhex, hpart, ne_eq, not_true_eq_false, if_false]
      refine ⟨cs.takeWhile Char.isDigit, cs.dropWhile Char.isDigit,
        List.takeWhile_append_dropWhile.symm, rfl, ?_⟩
      rw [ofDigitChars_eq hdigits.2]
      exact Matches.decimal hdigits
    · obtain ⟨ds, hdrop, htake⟩ := exists_of_digitsAfterPoint hpart
      rw [htake] at hpart
      simp only [readNumber, hhex, htake, hpart, ne_eq, not_true_eq_false, if_false,
        not_false_eq_true, if_true]
      refine ⟨cs.takeWhile Char.isDigit ++ '.' :: ds.takeWhile Char.isDigit,
        ds.dropWhile Char.isDigit, ?_, ?_, ?_⟩
      · rw [List.append_assoc, List.cons_append, List.takeWhile_append_dropWhile, ← hdrop,
          List.takeWhile_append_dropWhile]
      · rw [List.length_append, List.length_cons]
        omega
      · exact Matches.float hdigits ⟨hpart, fun _ hd => List.mem_takeWhile_imp hd⟩
  · have hzero : c = '0' := by
      by_contra hne
      exact hhex (if_neg hne)
    subst hzero
    rw [if_pos rfl] at hhex
    obtain ⟨x, ds, rfl, hx, htake⟩ := exists_of_hexDigitsAfterZero hhex
    rw [htake] at hhex
    rw [readNumber_of_hexDigits hx rfl hhex]
    refine ⟨x :: ds.takeWhile isHexDigit, ds.dropWhile isHexDigit, ?_, rfl, ?_⟩
    · rw [List.cons_append, List.takeWhile_append_dropWhile]
    · exact Matches.hex hx hhex fun _ hd => List.mem_takeWhile_imp hd

/-- What the reader takes matches. -/
theorem answers_read (hc : isSeparator c = false) (cs : List Char) :
    Answers c cs (read c cs) := by
  by_cases hdigit : c.isDigit = true
  · rw [read_of_isDigit hdigit]
    exact answers_readNumber hdigit cs
  by_cases hletter : isNameStart c = true
  · rw [read_of_isNameStart hletter]
    exact answers_readName hletter cs
  by_cases hquote : c = '"'
  · subst hquote
    exact answers_readQuoted cs
  by_cases hdollar : c = '$'
  · subst hdollar
    by_cases hsecond : cs.head? = some '$'
    · obtain ⟨rest, rfl⟩ := List.head?_eq_some_iff.mp hsecond
      exact ⟨['$'], rest, rfl, rfl, Matches.doubleDollar⟩
    · have hread : read '$' cs = (.dollar, 0) := if_neg hsecond
      rw [hread]
      exact ⟨[], cs, rfl, rfl, Matches.dollar⟩
  cases hchar : ofChar? c with
  | some t =>
    rw [read_of_ofChar? hchar]
    exact ⟨[], cs, rfl, rfl, Matches.char hchar⟩
  | none =>
    have hstray : IsStray c := ⟨Bool.eq_false_iff.mpr hdigit, Bool.eq_false_iff.mpr hletter,
      hquote, hdollar, hchar, hc⟩
    rw [hstray.read_eq]
    exact ⟨[], cs, rfl, rfl, Matches.stray hstray⟩

/-! ## The reader takes the longest match -/

theorem length_takeWhile_append {p : Char → Bool} (h : ∀ d ∈ ds, p d = true)
    (rest : List Char) : ds.length ≤ ((ds ++ rest).takeWhile p).length := by
  rw [List.takeWhile_append_of_pos h, List.length_append]
  exact Nat.le_add_right _ _

theorem le_readNumber_decimal (h : ∀ d ∈ ds, d.isDigit = true) (rest : List Char) :
    ds.length ≤ (readNumber c (ds ++ rest)).2 := by
  cases ds with
  | nil => exact Nat.zero_le _
  | cons d ds =>
    -- behind a second digit no `x` can make the first one the zero of base sixteen
    have hhex : hexDigitsAfterZero (d :: ds ++ rest) = [] := by
      apply hexDigitsAfterZero_eq_nil
      intro e he
      obtain rfl := Option.some.inj he
      exact Or.inl (h d List.mem_cons_self)
    have hle := length_takeWhile_append h rest
    simp only [readNumber, hhex, ite_self, ne_eq, not_true_eq_false, if_false]
    split
    · show _ ≤ _ + 1 + _
      omega
    · exact hle

theorem le_readNumber_float {part : List Char} (h : ∀ d ∈ ds, d.isDigit = true)
    (hpart : IsDigits part) (rest : List Char) :
    (ds ++ '.' :: part).length ≤ (readNumber c (ds ++ '.' :: part ++ rest)).2 := by
  rw [List.append_assoc, List.cons_append]
  have hpoint := isNameChar_head?_point (part ++ rest)
  have hstop := isDigit_head?_eq_false hpoint
  have hle := length_takeWhile_append hpart.2 rest
  have hpos : 0 < part.length := List.length_pos_of_ne_nil hpart.1
  have hne : digitsAfterPoint ('.' :: (part ++ rest)) ≠ [] := by
    apply List.ne_nil_of_length_pos
    exact Nat.lt_of_lt_of_le hpos hle
  simp only [readNumber, hexDigitsAfterZero_append h hpoint, ite_self,
    takeWhile_append_stop h hstop, dropWhile_append_stop h hstop, ne_eq, not_true_eq_false,
    if_false, hne, not_false_eq_true, if_true]
  rw [List.length_append, List.length_cons]
  show _ ≤ _ + 1 + ((part ++ rest).takeWhile Char.isDigit).length
  omega

theorem le_readNumber_hex {x : Char} (hx : x = 'x' ∨ x = 'X') (hne : ds ≠ [])
    (h : ∀ d ∈ ds, isHexDigit d = true) (rest : List Char) :
    (x :: ds).length ≤ (readNumber '0' (x :: (ds ++ rest))).2 := by
  have hle := length_takeWhile_append h rest
  have hpos : 0 < ds.length := List.length_pos_of_ne_nil hne
  have hsome : (ds ++ rest).takeWhile isHexDigit ≠ [] :=
    List.ne_nil_of_length_pos (Nat.lt_of_lt_of_le hpos hle)
  rw [readNumber_of_hexDigits hx rfl hsome]
  exact Nat.succ_le_succ hle

/-- The reader takes no less than what matches, whatever stands behind it. -/
theorem Matches.length_le (h : Matches t (c :: ds)) (rest : List Char) :
    ds.length ≤ (read c (ds ++ rest)).2 := by
  generalize hw : c :: ds = w at h
  cases h with
  | char h =>
    obtain ⟨-, rfl⟩ := List.cons.inj hw
    exact Nat.zero_le _
  | dollar =>
    obtain ⟨-, rfl⟩ := List.cons.inj hw
    exact Nat.zero_le _
  | doubleDollar =>
    obtain ⟨rfl, rfl⟩ := List.cons.inj hw
    exact Nat.le_refl 1
  | hex hx hne hds =>
    obtain ⟨rfl, rfl⟩ := List.cons.inj hw
    rw [read_of_isDigit (by decide)]
    exact le_readNumber_hex hx hne hds rest
  | decimal h =>
    subst hw
    obtain ⟨hc, hds⟩ := List.forall_mem_cons.mp h.2
    rw [read_of_isDigit hc]
    exact le_readNumber_decimal hds rest
  | @float whole part hwhole hpart =>
    obtain ⟨d, ds, rfl⟩ := List.exists_cons_of_ne_nil hwhole.1
    obtain ⟨rfl, rfl⟩ := List.cons.inj hw
    obtain ⟨hc, hds⟩ := List.forall_mem_cons.mp hwhole.2
    rw [read_of_isDigit hc]
    exact le_readNumber_float hds hpart rest
  | asWord =>
    obtain ⟨rfl, rfl⟩ := List.cons.inj hw
    rw [read_of_isNameStart (by decide)]
    exact length_takeWhile_append (List.forall_mem_singleton.mpr (by decide)) rest
  | name h has =>
    subst hw
    obtain ⟨hc, hds⟩ := Bool.and_eq_true_iff.mp h
    rw [read_of_isNameStart hc]
    exact length_takeWhile_append (List.all_eq_true.mp hds) rest
  | @quoted cs h =>
    obtain ⟨rfl, rfl⟩ := List.cons.inj hw
    show _ ≤ (readQuoted (cs ++ ['"'] ++ rest)).2
    rw [List.append_assoc, List.singleton_append, readQuoted_append (isQuotable_iff.mp h),
      List.length_append, List.length_singleton]
  | unclosed h =>
    obtain ⟨rfl, rfl⟩ := List.cons.inj hw
    have hle := h.quotedLength_append rest
    show _ ≤ (readQuoted (ds ++ rest)).2
    simp only [readQuoted]
    split
    · show _ ≤ _ + 1
      omega
    · show _ ≤ quotedLength _
      omega
  | stray h =>
    obtain ⟨-, rfl⟩ := List.cons.inj hw
    exact Nat.zero_le _

/-- What the reader takes is the longest match at the front of a text. -/
theorem matches_read {token : Token} {taken : Nat} (hc : isSeparator c = false)
    (h : read c cs = (token, taken)) :
    Matches token (c :: cs.take taken) ∧
      ∀ t other, Matches t other → other <+: c :: cs → other <+: c :: cs.take taken := by
  constructor
  · have hanswers := answers_read hc cs
    rw [h] at hanswers
    obtain ⟨front, rest, rfl, rfl, hmatches⟩ := hanswers
    rwa [List.take_left]
  · intro t other hother hfront
    obtain ⟨d, ds, rfl, -, -⟩ := hother.exists_read
    obtain ⟨rfl, hds⟩ := List.cons_prefix_cons.mp hfront
    obtain ⟨rest, rfl⟩ := hds
    have hle := hother.length_le rest
    rw [h] at hle
    exact List.cons_prefix_cons.mpr
      ⟨rfl, List.prefix_take_iff.mpr ⟨List.prefix_append ds rest, hle⟩⟩

/-! ## The tokens of a text -/

/-- Whether a token stands in a text as the longest match at its place. -/
structure IsLongest (text : List Char) (l : Lexeme) (cs : List Char) : Prop where
  marks : l.span.Marks text cs
  pattern : Matches l.token cs
  longest : ∀ t other, Matches t other → Text.At text l.span.start other → other <+: cs

/-- The tokens of a text's rest, which stands at `position`. -/
theorem exists_isLongest_of_mem_scan {text : List Char} {position : Nat} {l : Lexeme}
    (htext : ∃ before, text = before ++ cs ∧ Text.byteLength before = position)
    (hl : l ∈ scan position cs) : ∃ ds, IsLongest text l ds := by
  fun_induction scan position cs with
  | case1 => cases hl
  | case2 position c cs hc ih =>
    obtain ⟨before, rfl, rfl⟩ := htext
    refine ih ⟨before ++ [c], ?_, ?_⟩ hl
    · rw [List.append_assoc, List.singleton_append]
    · rw [Text.byteLength_append, Text.byteLength_cons, utf8Size_of_isSeparator hc]
      rfl
  | case3 position c cs hc token taken hread stop ih =>
    obtain ⟨before, rfl, rfl⟩ := htext
    have hsplit : before ++ c :: cs = (before ++ (c :: cs.take taken)) ++ cs.drop taken := by
      rw [List.append_assoc, List.cons_append, List.take_append_drop]
    rcases List.mem_cons.mp hl with rfl | htail
    · obtain ⟨hmatches, hlongest⟩ := matches_read (Bool.eq_false_iff.mpr hc) hread
      refine ⟨c :: cs.take taken, ⟨⟨before, cs.drop taken, hsplit, rfl⟩, rfl⟩, hmatches, ?_⟩
      intro t other hother hat
      obtain ⟨rest, hrest, hfront⟩ := hat.exists_dropBytes
      rw [Text.dropBytes_append] at hrest
      obtain rfl := Option.some.inj hrest
      exact hlongest t other hother hfront
    · exact ih ⟨before ++ (c :: cs.take taken), hsplit, Text.byteLength_append _ _⟩ htail

/-- A byte that no token takes is a character between tokens. -/
theorem exists_separator_of_gap {text : List Char} {position k : Nat}
    (hat : Text.At text position cs) (hle : position ≤ k)
    (hlt : k < position + Text.byteLength cs)
    (hgap : ∀ l ∈ scan position cs, ¬ (l.span.start ≤ k ∧ k < l.span.stop)) :
    ∃ c, isSeparator c = true ∧ Text.At text k [c] := by
  fun_induction scan position cs with
  | case1 position => exact absurd hlt (Nat.not_lt.mpr hle)
  | case2 position c cs hc ih =>
    have hfirst : Text.At text position ([c] ++ cs) := hat
    have hsize : Text.byteLength [c] = 1 := utf8Size_of_isSeparator hc
    rw [← List.singleton_append, Text.byteLength_append, hsize] at hlt
    by_cases hk : k = position
    · subst hk
      exact ⟨c, hc, hfirst.left⟩
    · have hrest := hfirst.right
      rw [hsize] at hrest
      exact ih hrest (by omega) (by omega) hgap
  | case3 position c cs hc token taken hread stop ih =>
    have hsplit : c :: cs = (c :: cs.take taken) ++ cs.drop taken := by
      rw [List.cons_append, List.take_append_drop]
    have hstop : stop ≤ k := by
      by_contra hinside
      exact hgap _ List.mem_cons_self ⟨hle, Nat.not_le.mp hinside⟩
    rw [hsplit] at hat hlt
    rw [Text.byteLength_append, ← Nat.add_assoc] at hlt
    exact ih hat.right hstop hlt fun l hl => hgap l (List.mem_cons_of_mem _ hl)

end Token

/-- Tokens are not empty, lie in the text and stand one behind the other.  The bytes between them
are spaces and tabs.  The text of a token is the longest at its place that is a token, and read by
itself it is that token and no other.  All this holds of text that is no token as well. -/
theorem tokenize_lossless (text : List Char) :
    (∀ l ∈ tokenize text, l.span.start < l.span.stop ∧ l.span.stop ≤ Text.byteLength text) ∧
    ((tokenize text).Pairwise fun l m =>
      l.span.start < m.span.start ∧ l.span.stop ≤ m.span.start) ∧
    (∀ k < Text.byteLength text,
      (∀ l ∈ tokenize text, ¬ (l.span.start ≤ k ∧ k < l.span.stop)) →
        Text.At text k [' '] ∨ Text.At text k ['\t']) ∧
    ∀ l ∈ tokenize text, ∃ cs, l.span.extract? text = some cs ∧
      tokenize cs = [⟨l.token, ⟨0, Text.byteLength cs⟩⟩] ∧
      Token.Matches l.token cs ∧
      ∀ t other, Token.Matches t other → Text.At text l.span.start other → other <+: cs := by
  have hinOrder := inOrder_tokenize text
  refine ⟨?_, ?_, ?_, ?_⟩
  · intro l hl
    exact ⟨hinOrder.nonempty l hl, (hinOrder.within l hl).stop.le⟩
  · refine hinOrder.apart.imp_of_mem ?_
    intro l m hl hm hapart
    exact ⟨Nat.lt_of_lt_of_le (hinOrder.nonempty l hl) hapart, hapart⟩
  · intro k hk hgap
    obtain ⟨c, hc, hat⟩ := Token.exists_separator_of_gap (Text.at_self text) (Nat.zero_le k)
      (by rwa [Nat.zero_add]) hgap
    rw [Token.isSeparator, Bool.or_eq_true, beq_iff_eq, beq_iff_eq] at hc
    rcases hc with rfl | rfl
    · exact Or.inl hat
    · exact Or.inr hat
  · intro l hl
    obtain ⟨cs, hlongest⟩ := Token.exists_isLongest_of_mem_scan ⟨[], rfl, rfl⟩ hl
    exact ⟨cs, hlongest.marks.extract?, hlongest.pattern.tokenize_eq, hlongest.pattern,
      hlongest.longest⟩

/-- Quoted text with an escape, a character of three bytes that starts nothing, a number with a point
but no digits behind it, and a quote without its end. -/
def mixed : List Char := "\x7b\"é\\\"\" ☃\t1.x\"a".toList

theorem tokenize_lossless_mixed :
    tokenize mixed =
        [⟨.leftBrace, ⟨0, 1⟩⟩, ⟨.quoted "é\\\"", ⟨1, 7⟩⟩, ⟨.unrecognised "☃", ⟨8, 11⟩⟩,
          ⟨.decimal 1, ⟨12, 13⟩⟩, ⟨.dot, ⟨13, 14⟩⟩, ⟨.name "x", ⟨14, 15⟩⟩,
          ⟨.unrecognised "\"a", ⟨15, 17⟩⟩] ∧
      (Text.At mixed 11 [' '] ∨ Text.At mixed 11 ['\t']) ∧
      ∃ cs, (⟨1, 7⟩ : Span).extract? mixed = some cs ∧
        tokenize cs = [⟨.quoted "é\\\"", ⟨0, Text.byteLength cs⟩⟩] ∧
        Token.Matches (.quoted "é\\\"") cs ∧
        ∀ t other, Token.Matches t other → Text.At mixed 1 other → other <+: cs := by
  have htokens : tokenize mixed =
      [⟨.leftBrace, ⟨0, 1⟩⟩, ⟨.quoted "é\\\"", ⟨1, 7⟩⟩, ⟨.unrecognised "☃", ⟨8, 11⟩⟩,
        ⟨.decimal 1, ⟨12, 13⟩⟩, ⟨.dot, ⟨13, 14⟩⟩, ⟨.name "x", ⟨14, 15⟩⟩,
        ⟨.unrecognised "\"a", ⟨15, 17⟩⟩] := by decide +kernel
  obtain ⟨-, -, hgaps, hreread⟩ := tokenize_lossless mixed
  refine ⟨htokens, hgaps 11 (by decide) ?_, hreread ⟨.quoted "é\\\"", ⟨1, 7⟩⟩ ?_⟩
  · rw [htokens]
    decide
  · rw [htokens]
    decide

end LinkAsm
