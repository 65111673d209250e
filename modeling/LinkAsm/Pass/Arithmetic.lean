import LinkAsm.Address
import LinkAsm.Diagnostic.Message
import LinkAsm.Expr.Basic
import LinkAsm.Pass.Address
import LinkAsm.Word.Arithmetic

/-!
# Arithmetic of expressions

Operators work on whole numbers as long as their result is one: a sum, product or power that does
not fit four bytes is an error.  A negative difference, an inexact quotient, and everything with a
real operand are computed in doubles and packed again: into four bytes if the result is a whole
number that fits, and into a real otherwise.

* `AliasValue`: the outcome of an expression.
* `Operator.apply`, `Cast.apply`, `injected`: what operators, casts and constants give.
-/

namespace LinkAsm

/-- Why an expression has no value. -/
inductive AliasErrorKind where
  | malformed (reason : String)
  | invalidCast (name : String)
  | nonFinite
  | outOfRange (error : RangeError)
  | undefinedAlias (name : String)
  | dependencyCycle (name : String)
  | erroneousDependency (name : String)
  | invalidInjector (kind value : String)
  | unimplementedInjector (kind : String)
  | undeclaredImport (qualifier : String)
  | unresolvedExternal (object symbol : String)
  | address (failure : AddressFailure)
deriving DecidableEq, Repr

namespace AliasErrorKind

/-- The code of an error. -/
def code : AliasErrorKind → Code
  | .malformed _ => .malformedAlias
  | .invalidCast _ => .invalidCast
  | .nonFinite => .nonFiniteResult
  | .outOfRange _ => .valueOutOfRange
  | .undefinedAlias _ => .undefinedAlias
  | .dependencyCycle _ => .dependencyCycle
  | .erroneousDependency _ => .erroneousDependency
  | .invalidInjector _ _ => .invalidInjector
  | .unimplementedInjector _ => .unimplementedInjector
  | .undeclaredImport _ => .undeclaredImport
  | .unresolvedExternal _ _ => .unresolvedExternal
  | .address failure => failure.code

/-- The text of an error. -/
def message : AliasErrorKind → String
  | .malformed reason => "malformed alias expression: " ++ reason
  | .invalidCast name => "'" ++ name ++
    "' is not a valid cast; use Byte, DoubleByte, TriByte, QuadByte, Float or Address"
  | .nonFinite => "result is not a finite number"
  | .outOfRange error => "result is out of range: " ++ error.message
  | .undefinedAlias name => "alias " ++ name ++ " is not defined"
  | .dependencyCycle name => "alias depends on " ++ name ++
    ", which never gets a value because of a dependency cycle"
  | .erroneousDependency name => name ++ " has an erroneous value"
  | .invalidInjector kind value => "invalid constant injector @" ++ kind ++ "=" ++ value
  | .unimplementedInjector kind =>
    "quoted constant injectors (@" ++ kind ++ "=\"...\") are not implemented"
  | .undeclaredImport qualifier => "no import directive names " ++ qualifier
  | .unresolvedExternal object symbol => "object " ++ object ++ " does not export " ++ symbol
  | .address failure => failure.message

end AliasErrorKind

/-- An error at a place. -/
structure AliasError where
  span : Span
  kind : AliasErrorKind
deriving DecidableEq, Repr

/-- The message about an error. -/
def AliasError.report (e : AliasError) : Message := .critical e.kind.code e.span e.kind.message

/-- The outcome of an expression. -/
inductive AliasValue where
  | word (w : Word)
  | error (e : AliasError)
  /-- The pass does not know enough. -/
  | deferred
  /-- The named alias has to get its value first. -/
  | dependsOn (name : String)
deriving DecidableEq, Repr

namespace AliasValue

/-- The value that a symbol table records. -/
def toSymbolValue : AliasValue → SymbolValue
  | .word w => .word w
  | .deferred | .dependsOn _ => .deferred
  | .error _ => .error

/-- The outcome of an error at a place. -/
def fail (span : Span) (kind : AliasErrorKind) : AliasValue := .error ⟨span, kind⟩

/-- The outcome of a conversion at a place. -/
def ofResult (span : Span) : Except RangeError Word → AliasValue
  | .ok w => .word w
  | .error e => fail span (.outOfRange e)

/-- The outcome with the place of its error moved `n` bytes to the right. -/
def shift (n : Nat) : AliasValue → AliasValue
  | .error e => .error ⟨e.span.shift n, e.kind⟩
  | other => other

/-- The outcome of a computed double: four bytes if it is a whole number that fits, else a real. -/
def ofFloat (span : Span) (x : Float) : AliasValue :=
  match Number.Fraction.ofFloat? x with
  | none => fail span .nonFinite
  | some q =>
    let whole := q.num % q.den = 0 ∧ 0 ≤ q.num ∧ q.num ≤ Width.quadByte.maxValue * q.den
    if whole then ofResult span (Word.ofFraction .quadByte q) else ofResult span (Word.real x)

end AliasValue

namespace Operator

/-- The operator on doubles. -/
def onFloats (op : Operator) (x y : Float) : Float :=
  match op with
  | .add => x + y
  | .subtract => x - y
  | .multiply => x * y
  | .divide => x / y
  | .power => x ^ y

/-- The power of two numbers as a four-byte word.  From two on, a power with an exponent of 32 or
more does not fit, and is not computed. -/
def powerWord (b e : Nat) : Except RangeError Word :=
  if b < 2 then Word.ofNat .quadByte (if e = 0 then 1 else b)
  else if 32 ≤ e then .error .tooLarge
  else Word.ofNat .quadByte (Nat.pow b e)

/-- The operator on doubles, packed again. -/
def applyReal (op : Operator) (span : Span) (v w : Word) : AliasValue :=
  .ofFloat span (op.onFloats v.toFloat w.toFloat)

/-- The operator on unsigned words, widened to four bytes. -/
def applyUnsigned (op : Operator) (span : Span) (v w : Word) : AliasValue :=
  let v : Word := { v with width := .quadByte }
  let w : Word := { w with width := .quadByte }
  match op with
  | .add => .ofResult span (v.sum w).exact
  | .subtract =>
    if v.bits < w.bits then op.applyReal span v w else .ofResult span (v.difference w).exact
  | .multiply => .ofResult span (v.product w).exact
  | .divide =>
    if w.bits = 0 then .fail span .nonFinite
    else if v.bits % w.bits ≠ 0 then op.applyReal span v w
    else .ofResult span (v.quotient w).exact
  | .power => .ofResult span (powerWord v.bits w.bits)

/-- The operator on words; `span` is the place of the operation. -/
def apply (op : Operator) (span : Span) (v w : Word) : AliasValue :=
  if v.isReal || w.isReal then op.applyReal span v w else op.applyUnsigned span v w

end Operator

/-- The cast on a word; `span` is the place of the cast. -/
def Cast.apply (cast : Cast) (span : Span) (w : Word) : AliasValue :=
  match cast with
  | .width target => .ofResult span (w.resized target)
  | .float => if w.isReal then .word w else .ofResult span (Word.real w.toFloat)
  | .address => .ofResult span ((Address.ofWord w).map Address.toWord)
  | .unknown name => .fail span (.invalidCast name)

/-! ## Constants with the name of their kind -/

/-- The number that digits are, in base ten or, behind `0x`, in base sixteen. -/
def readUnsigned? (text : List Char) : Option Nat :=
  match text with
  | '0' :: x :: cs =>
    if x = 'x' || x = 'X' then
      if !cs.isEmpty && cs.all isHexDigit then some (ofHexDigits cs) else none
    else if text.all Char.isDigit then some (Nat.ofDigitChars 10 text 0) else none
  | _ => if !text.isEmpty && text.all Char.isDigit then some (Nat.ofDigitChars 10 text 0) else none

/-- The double that digits are, with a sign before and a fraction behind them. -/
def readReal? (text : List Char) : Option Float :=
  let negative := text.head? = some '-'
  let text := if negative then text.tail else text
  let whole := text.takeWhile Char.isDigit
  let rest := text.dropWhile Char.isDigit
  let part := rest.tail
  let isNumber := !whole.isEmpty && (rest.isEmpty ||
    (rest.head? = some '.' && !part.isEmpty && part.all Char.isDigit))
  if isNumber then
    let x := Number.read whole part
    some (if negative then -x else x)
  else none

/-- The word that a constant of some kind is: a flag is a byte, a vector has four bytes, and a float
is a real. -/
def injectedWord? (kind value : String) : Option Word :=
  match kind with
  | "flag" => (readUnsigned? value.toList).bind fun n =>
    if n ≤ 1 then (Word.ofNat .byte n).toOption else none
  | "vector" => (readUnsigned? value.toList).bind fun n => (Word.ofNat .quadByte n).toOption
  | "float" => (readReal? value.toList).bind fun x => (Word.real x).toOption
  | _ => none

/-- The outcome of a constant. -/
def injected (span : Span) (kind value : String) : AliasValue :=
  match injectedWord? kind value with
  | some w => .word w
  | none => .fail span (.invalidInjector kind value)

end LinkAsm
