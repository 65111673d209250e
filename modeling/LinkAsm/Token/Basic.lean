import LinkAsm.Number.Text
import LinkAsm.Text.Basic
import LinkAsm.Text.Span

/-!
# Tokens

The tokens of expressions and instruction operands, and the characters they are made of.  Numbers
have at most 64 bits.  `Token.text` writes a token in its usual form: a hexadecimal number in
capitals, quoted text with its escapes as they were written.
-/

namespace LinkAsm

/-! ## Characters -/

/-- Characters that start a name. -/
def isNameStart (c : Char) : Bool := c.isAlpha || c == '_'

/-- Characters that continue a name. -/
def isNameChar (c : Char) : Bool := c.isAlphanum || c == '_'

/-- Digits of base sixteen. -/
def isHexDigit (c : Char) : Bool :=
  c.isDigit || ('a' ≤ c && c ≤ 'f') || ('A' ≤ c && c ≤ 'F')

/-- The value of a digit of base sixteen. -/
def hexDigitValue (c : Char) : Nat :=
  if c.isDigit then c.toNat - '0'.toNat else c.toLower.toNat - 'a'.toNat + 10

/-- The number with these digits in base sixteen. -/
def ofHexDigits (cs : List Char) : Nat := cs.foldl (fun n c => 16 * n + hexDigitValue c) 0

/-! ## Tokens -/

/-- A token. -/
inductive Token where
  /-- Text that is no token. -/
  | unrecognised (text : String)
  | leftBrace
  | rightBrace
  | plus
  | minus
  | asterisk
  | solidus
  | caret
  | colon
  | equals
  | dot
  | hash
  | dollar
  | doubleDollar
  | atSign
  /-- The word `as`. -/
  | asWord
  | hex (n : Nat)
  | decimal (n : Nat)
  /-- Digits before and after a point. -/
  | float (whole part : String)
  | name (text : String)
  /-- Text between quotes, its escapes as they were written. -/
  | quoted (text : String)
deriving DecidableEq, Repr

namespace Token

/-- Text that is no token, as messages show it. -/
def unrecognisedText (s : String) : String := "(error: unrecognised input '" ++ s ++ "')"

/-- Text between quotes. -/
def quotedText (s : String) : String := "\"" ++ s ++ "\""

/-- A token in its usual form. -/
def text : Token → String
  | .unrecognised s => unrecognisedText s
  | .leftBrace => "\x7b"
  | .rightBrace => "\x7d"
  | .plus => "+"
  | .minus => "-"
  | .asterisk => "*"
  | .solidus => "/"
  | .caret => "^"
  | .colon => ":"
  | .equals => "="
  | .dot => "."
  | .hash => "#"
  | .dollar => "$"
  | .doubleDollar => "$$"
  | .atSign => "@"
  | .asWord => "as"
  | .hex n => Text.hex 1 n
  | .decimal n => toString n
  | .float whole part => whole ++ "." ++ part
  | .name s => s
  | .quoted s => quotedText s

/-- The largest number that is a token has 64 bits. -/
def numberLimit : Nat := 0x10000000000000000

end Token

/-- A token and the place where it stands. -/
structure Lexeme where
  token : Token
  span : Span
deriving DecidableEq, Repr

end LinkAsm
