import LinkAsm.Number.Decimal
import LinkAsm.Toml.Value

/-!
# Strings, numbers and dates of a TOML document

Readers take the characters of a document and answer what they read together with the rest, or
`none` if the text is not well formed.

* `QuotedStyle.read`: the four kinds of strings, by one machine that goes from state to state.
* `readAtom`: booleans, numbers and dates, which extend as far as their characters go.
-/

namespace LinkAsm.Toml

/-! ## Characters -/

/-- Blanks do not end a line. -/
def isBlank (c : Char) : Bool := c = ' ' || c = '\t'

/-- Characters that may stand in a comment or a string: all but control characters other than the
tabulator. -/
def isPrintable (c : Char) : Bool := c = '\t' || (' ' ≤ c && c != '\x7f')

/-- The value of a digit in base sixteen. -/
def hexValue? (c : Char) : Option Nat :=
  if c.isDigit then some (c.toNat - '0'.toNat)
  else if 'a' ≤ c && c ≤ 'f' then some (c.toNat - 'a'.toNat + 10)
  else if 'A' ≤ c && c ≤ 'F' then some (c.toNat - 'A'.toNat + 10)
  else none

/-- The character with a code, if there is one. -/
def charOf? (n : Nat) : Option Char := if n.isValidChar then some (Char.ofNat n) else none

/-- The character of an escape of one letter. -/
def escaped? : Char → Option Char
  | 'b' => some '\x08'
  | 't' => some '\t'
  | 'n' => some '\n'
  | 'f' => some '\x0c'
  | 'r' => some '\r'
  | '"' => some '"'
  | '\\' => some '\\'
  | _ => none

/-! ## Strings -/

/-- A kind of string. -/
structure QuotedStyle where
  quote : Char
  escapes : Bool
  multiline : Bool

namespace QuotedStyle

/-- The number of quotes at either end. -/
def quotes (style : QuotedStyle) : Nat := if style.multiline then 3 else 1

/-- The greatest number of quotes at the end: two of them may belong to a string of many lines. -/
def mostQuotes (style : QuotedStyle) : Nat := if style.multiline then 5 else 1

/-- Where the reader is in a string. -/
inductive State where
  | plain
  /-- Behind a number of quotes. -/
  | quoted (n : Nat)
  /-- Behind a backslash. -/
  | backslash
  /-- Within a character code, with digits still to come. -/
  | code (digits value : Nat)
  /-- Behind a backslash and blanks: the line must end. -/
  | lineEnd
  /-- Behind an escaped line break: blanks and line breaks are skipped. -/
  | skipping
  /-- Behind a carriage return: a line feed must follow, which is part of the string or skipped. -/
  | carriage (kept : Bool)

/-- The characters a character adds to the string where nothing has begun, and the next state. -/
def plainStep (style : QuotedStyle) (c : Char) : Option (List Char × State) :=
  if c = style.quote then some ([], .quoted 1)
  else if style.escapes && c = '\\' then some ([], .backslash)
  else if style.multiline && c = '\n' then some ([c], .plain)
  else if style.multiline && c = '\r' then some ([], .carriage true)
  else if isPrintable c then some ([c], .plain)
  else none

/-- The next state behind an escaped line break. -/
def skipStep (c : Char) : Option (List Char × State) :=
  if c = '\n' then some ([], .skipping) else if c = '\r' then some ([], .carriage false) else none

/-- The characters a character adds to the string, and the next state. -/
def step (style : QuotedStyle) (c : Char) : State → Option (List Char × State)
  | .plain => style.plainStep c
  | .quoted n =>
    if c = style.quote then some ([], .quoted (n + 1))
    else (style.plainStep c).map fun (added, next) => (List.replicate n style.quote ++ added, next)
  | .backslash =>
    if c = 'u' then some ([], .code 4 0)
    else if c = 'U' then some ([], .code 8 0)
    else if style.multiline && isBlank c then some ([], .lineEnd)
    else if style.multiline && (c = '\n' || c = '\r') then skipStep c
    else (escaped? c).map fun d => ([d], .plain)
  | .code digits value => do
    let value := 16 * value + (← hexValue? c)
    if digits ≤ 1 then return ([← charOf? value], .plain) else return ([], .code (digits - 1) value)
  | .lineEnd => if isBlank c then some ([], .lineEnd) else skipStep c
  | .skipping =>
    if isBlank c then some ([], .skipping)
    else if c = '\n' || c = '\r' then skipStep c
    else style.plainStep c
  | .carriage kept =>
    if c = '\n' then some (if kept then ([c], .plain) else ([], .skipping)) else none

/-- The number of quotes that end the string before a character, or before the end of the text. -/
def closing? (style : QuotedStyle) : State → Option Char → Option Nat
  | .quoted n, next =>
    if n < style.quotes || (next == some style.quote && n < style.mostQuotes) then none else some n
  | _, _ => none

/-- The string whose reading stands in a state. -/
def readFrom (style : QuotedStyle) (state : State) : List Char → Option (List Char × List Char)
  | [] => do
    let n ← style.closing? state none
    return (List.replicate (n - style.quotes) style.quote, [])
  | c :: cs =>
    match style.closing? state (some c) with
    | some n => some (List.replicate (n - style.quotes) style.quote, c :: cs)
    | none => do
      let (added, next) ← style.step c state
      let (following, rest) ← readFrom style next cs
      return (added ++ following, rest)

/-- The string whose opening quotes have been read. -/
def read (style : QuotedStyle) (cs : List Char) : Option (String × List Char) := do
  let (s, rest) ← style.readFrom .plain cs
  return (String.ofList s, rest)

end QuotedStyle

/-- A string on one line: in double quotes with escapes, in single quotes without. -/
def readString : List Char → Option (String × List Char)
  | '"' :: cs => QuotedStyle.read ⟨'"', true, false⟩ cs
  | '\'' :: cs => QuotedStyle.read ⟨'\'', false, false⟩ cs
  | _ => none

/-- Characters without a line break at their start. -/
def dropNewline : List Char → List Char
  | '\n' :: cs => cs
  | '\r' :: '\n' :: cs => cs
  | cs => cs

/-- A string of one or of many lines; a line break behind three opening quotes does not count. -/
def readAnyString : List Char → Option (String × List Char)
  | '"' :: '"' :: '"' :: cs => QuotedStyle.read ⟨'"', true, true⟩ (dropNewline cs)
  | '\'' :: '\'' :: '\'' :: cs => QuotedStyle.read ⟨'\'', false, true⟩ (dropNewline cs)
  | cs => readString cs

/-! ## Numbers -/

/-- Digits without the underscores between them. -/
def ungroup (isDigit : Char → Bool) : List Char → Option (List Char)
  | [] => none
  | [c] => if isDigit c then some [c] else none
  | c :: '_' :: cs => if isDigit c then (ungroup isDigit cs).map (c :: ·) else none
  | c :: cs => if isDigit c then (ungroup isDigit cs).map (c :: ·) else none

/-- The digits of a whole number, which has no needless zeros in front. -/
def wholeDigits? (cs : List Char) : Option (List Char) := do
  let digits ← ungroup Char.isDigit cs
  if digits.length ≠ 1 && digits.head? == some '0' then none else some digits

/-- A sign, if there is one, and what follows it. -/
def splitSign : List Char → Bool × List Char
  | '-' :: cs => (true, cs)
  | '+' :: cs => (false, cs)
  | cs => (false, cs)

/-- The digits of a number in a base other than ten. -/
def basedNat? (base : Nat) (cs : List Char) : Option Nat := do
  let isDigit c := match hexValue? c with
    | some d => decide (d < base)
    | none => false
  let digits ← ungroup isDigit cs
  return digits.foldl (fun n c => base * n + (hexValue? c).getD 0) 0

/-- A whole number; it has sixty-four bits, one of them for the sign. -/
def integer? (cs : List Char) : Option Int := do
  let n ← match cs with
    | '0' :: 'x' :: cs => (basedNat? 16 cs).map Int.ofNat
    | '0' :: 'o' :: cs => (basedNat? 8 cs).map Int.ofNat
    | '0' :: 'b' :: cs => (basedNat? 2 cs).map Int.ofNat
    | cs => do
      let (negative, cs) := splitSign cs
      let n := Nat.ofDigitChars 10 (← wholeDigits? cs) 0
      some (if negative then -(n : Int) else n)
  if -0x8000000000000000 ≤ n ∧ n < 0x8000000000000000 then some n else none

/-- The digits behind the point of a number, none if there is no point. -/
def partDigits? : List Char → Option (List Char)
  | [] => some []
  | _ :: cs => ungroup Char.isDigit cs

/-- The exponent of a number with its letter, zero if there is none. -/
def exponent? : List Char → Option Int
  | [] => some 0
  | _ :: cs => do
    let (negative, cs) := splitSign cs
    let n := Nat.ofDigitChars 10 (← ungroup Char.isDigit cs) 0
    return if negative then -(n : Int) else n

/-- A number with a point or an exponent, and without a sign. -/
def decimal? (cs : List Char) : Option Number.Decimal := do
  let digits := cs.takeWhile fun c => c != 'e' && c != 'E'
  let whole := digits.takeWhile (· != '.')
  let part ← partDigits? (digits.drop whole.length)
  let exponent ← exponent? (cs.drop digits.length)
  if whole.length = cs.length then none
  else return .ofDigits (← wholeDigits? whole) part exponent

/-- Whether the text is a number with a point or an exponent, or one of the names `inf` and `nan`.
A number must not be too great for a double; far below zero it is rounded to minus infinity. -/
def isFloat (cs : List Char) : Bool :=
  let (negative, cs) := splitSign cs
  cs = ['i', 'n', 'f'] || cs = ['n', 'a', 'n'] ||
    match decimal? cs with
    | some d => negative || !d.overflows
    | none => false

/-! ## Dates and times -/

/-- A number of exactly `n` digits that lies in a range. -/
def readDigits (n least most : Nat) (cs : List Char) : Option (Nat × List Char) :=
  let digits := cs.take n
  let value := Nat.ofDigitChars 10 digits 0
  if digits.length = n && digits.all Char.isDigit && least ≤ value && value ≤ most then
    some (value, cs.drop n)
  else none

/-- What follows a character that must come next. -/
def expect (c : Char) : List Char → Option (List Char)
  | d :: cs => if d = c then some cs else none
  | [] => none

/-- The number of days of a month. -/
def daysIn (year month : Nat) : Nat :=
  if month = 2 then (if year % 4 = 0 && (year % 100 != 0 || year % 400 = 0) then 29 else 28)
  else if month ∈ [4, 6, 9, 11] then 30
  else 31

/-- A day, written year first. -/
def readDate (cs : List Char) : Option (Date × List Char) := do
  let (year, cs) ← readDigits 4 0 9999 cs
  let (month, cs) ← readDigits 2 1 12 (← expect '-' cs)
  let (day, cs) ← readDigits 2 1 (daysIn year month) (← expect '-' cs)
  return (⟨year, month, day⟩, cs)

/-- The nanoseconds of a second's decimals, of which nine count. -/
def readNanoseconds : List Char → Option (Nat × List Char)
  | '.' :: cs =>
    let digits := cs.takeWhile Char.isDigit
    let nine := (digits ++ List.replicate 9 '0').take 9
    if digits.isEmpty then none else some (Nat.ofDigitChars 10 nine 0, cs.drop digits.length)
  | cs => some (0, cs)

/-- A time of day; a minute may have a leap second. -/
def readTime (cs : List Char) : Option (Time × List Char) := do
  let (hour, cs) ← readDigits 2 0 23 cs
  let (minute, cs) ← readDigits 2 0 59 (← expect ':' cs)
  let (second, cs) ← readDigits 2 0 60 (← expect ':' cs)
  let (nanosecond, cs) ← readNanoseconds cs
  return (⟨hour, minute, second, nanosecond⟩, cs)

/-- The zone that takes up the whole text, if there is any text. -/
def zone? (cs : List Char) : Option (Option ZoneOffset) :=
  if cs.isEmpty then some none
  else if cs = ['Z'] || cs = ['z'] then some (some .utc)
  else do
    let (negative, cs) ← match cs with
      | '-' :: cs => some (true, cs)
      | '+' :: cs => some (false, cs)
      | _ => none
    let (hours, cs) ← readDigits 2 0 23 cs
    let (minutes, cs) ← readDigits 2 0 59 (← expect ':' cs)
    let n : Int := 60 * hours + minutes
    if cs.isEmpty then some (some (.minutes (if negative then -n else n))) else none

/-- The time and zone that take up the whole text. -/
def timeAndZone? (date : Date) (cs : List Char) : Option Datetime := do
  let (time, cs) ← readTime cs
  return ⟨some date, some time, ← zone? cs⟩

/-- The date, time or both that take up the whole text. -/
def datetime? (cs : List Char) : Option Datetime :=
  match readDate cs with
  | some (date, []) => some ⟨some date, none, none⟩
  | some (date, c :: cs) => if c = 'T' || c = 't' then timeAndZone? date cs else none
  | none =>
    match readTime cs with
    | some (time, []) => some ⟨none, some time, none⟩
    | _ => none

/-! ## Atoms -/

/-- The characters of booleans, numbers and dates. -/
def isAtomChar (c : Char) : Bool := c.isAlphanum || c ∈ ['+', '-', '.', ':', '_']

/-- The value of a text without quotes. -/
def atom? (cs : List Char) : Option Value :=
  if cs = ['t', 'r', 'u', 'e'] then some (.boolean true)
  else if cs = ['f', 'a', 'l', 's', 'e'] then some (.boolean false)
  else match datetime? cs with
    | some d => some (.datetime d)
    | none =>
      if isFloat cs then some (.float (String.ofList cs)) else (integer? cs).map .integer

/-- A value without quotes.  A blank may divide a date from its time. -/
def readAtom (cs : List Char) : Option (Value × List Char) := do
  let value ← atom? (cs.takeWhile isAtomChar)
  let rest := cs.dropWhile isAtomChar
  match value, rest with
  | .datetime ⟨some date, none, none⟩, ' ' :: next =>
    match next.takeWhile isAtomChar with
    | [] => return (value, rest)
    | time => return (.datetime (← timeAndZone? date time), next.dropWhile isAtomChar)
  | _, _ => return (value, rest)

/-- A value that holds no others. -/
def readScalar (cs : List Char) : Option (Value × List Char) :=
  match cs with
  | '"' :: _ | '\'' :: _ => (readAnyString cs).map fun (s, rest) => (.string s, rest)
  | _ => readAtom cs

end LinkAsm.Toml
