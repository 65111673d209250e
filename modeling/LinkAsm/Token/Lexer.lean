import LinkAsm.Token.Basic

/-!
# Reading tokens

The longest token is taken from the front of the text, again and again; spaces and tabs between
tokens are skipped.  Where no token starts, an `unrecognised` token takes the least text that can be
skipped: one character, a number that has too many bits, or a quote with what it might have quoted.

* `Token.read c cs`: the token at the front of `c :: cs`, and how many characters of `cs` it takes.
* `tokenize`: all tokens of a text with their places.
-/

namespace LinkAsm

namespace Token

/-- The token of one character that no longer token starts with. -/
def ofChar? : Char → Option Token
  | '\x7b' => some .leftBrace
  | '\x7d' => some .rightBrace
  | '+' => some .plus
  | '-' => some .minus
  | '*' => some .asterisk
  | '/' => some .solidus
  | '^' => some .caret
  | ':' => some .colon
  | '=' => some .equals
  | '.' => some .dot
  | '#' => some .hash
  | '@' => some .atSign
  | _ => none

/-- A number token, if it has at most 64 bits; `source` is its text. -/
def ofNumber (make : Nat → Token) (n : Nat) (source : List Char) : Token :=
  if n < numberLimit then make n else .unrecognised (String.ofList source)

/-- The digits of base sixteen after a zero: at least one behind an `x`. -/
def hexDigitsAfterZero : List Char → List Char
  | x :: cs => if x = 'x' || x = 'X' then cs.takeWhile isHexDigit else []
  | [] => []

/-- The digits after a point: at least one. -/
def digitsAfterPoint : List Char → List Char
  | '.' :: cs => cs.takeWhile Char.isDigit
  | _ => []

/-- The number at the front of `c :: cs`, which starts with the digit `c`. -/
def readNumber (c : Char) (cs : List Char) : Token × Nat :=
  let hexDigits := if c = '0' then hexDigitsAfterZero cs else []
  let digits := cs.takeWhile Char.isDigit
  let part := digitsAfterPoint (cs.dropWhile Char.isDigit)
  if hexDigits ≠ [] then
    let taken := hexDigits.length + 1
    (ofNumber .hex (ofHexDigits hexDigits) (c :: cs.take taken), taken)
  else if part ≠ [] then
    (.float (String.ofList (c :: digits)) (String.ofList part), digits.length + 1 + part.length)
  else
    (ofNumber .decimal (Nat.ofDigitChars 10 (c :: digits) 0) (c :: digits), digits.length)

/-- The name at the front of `c :: cs`, which starts with `c`. -/
def readName (c : Char) (cs : List Char) : Token × Nat :=
  let tail := cs.takeWhile isNameChar
  let name := c :: tail
  (if name = ['a', 's'] then .asWord else .name (String.ofList name), tail.length)

/-- The number of characters in the longest run of plain characters and escapes.  A plain character
is neither a quote nor a backslash; an escape is a backslash with any character but a line break. -/
def quotedLength : List Char → Nat
  | '\\' :: c :: cs => if c = '\n' then 0 else quotedLength cs + 2
  | '\\' :: [] => 0
  | '"' :: _ => 0
  | _ :: cs => quotedLength cs + 1
  | [] => 0

/-- The quoted text behind a quote, up to the quote that ends it. -/
def readQuoted (cs : List Char) : Token × Nat :=
  let n := quotedLength cs
  if (cs.drop n).head? = some '"' then (.quoted (String.ofList (cs.take n)), n + 1)
  else (.unrecognised (String.ofList ('"' :: cs.take n)), n)

/-- The token at the front of `c :: cs`, and how many characters of `cs` it takes. -/
def read (c : Char) (cs : List Char) : Token × Nat :=
  if c.isDigit then readNumber c cs
  else if isNameStart c then readName c cs
  else if c = '"' then readQuoted cs
  else if c = '$' then if cs.head? = some '$' then (.doubleDollar, 1) else (.dollar, 0)
  else ((ofChar? c).getD (.unrecognised (String.singleton c)), 0)

/-- Characters between tokens. -/
def isSeparator (c : Char) : Bool := c == ' ' || c == '\t'

/-- The tokens of a text that starts at byte `position`. -/
def scan (position : Nat) : List Char → List Lexeme
  | [] => []
  | c :: cs =>
    if isSeparator c then scan (position + 1) cs
    else
      let (token, taken) := read c cs
      let stop := position + Text.byteLength (c :: cs.take taken)
      ⟨token, ⟨position, stop⟩⟩ :: scan stop (cs.drop taken)
termination_by cs => cs.length

end Token

/-- The tokens of a text. -/
def tokenize (text : List Char) : List Lexeme := Token.scan 0 text

end LinkAsm
