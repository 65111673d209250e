import LinkAsm.Expr.Basic
import LinkAsm.Token.Parser

/-!
# The grammar of operands

The leaves of expressions, with their alternatives in the order in which they are tried, and what may
stand around them: operators and casts.
-/

namespace LinkAsm

namespace Grammar

open LinkAsm.Parser

/-- A name. -/
def name : Parser String :=
  labelled "name" <| oneOf fun
    | .name s => some s
    | _ => none

/-- A whole number in base ten or sixteen. -/
def integer : Parser Nat :=
  labelled "integer" <| oneOf fun
    | .decimal n | .hex n => some n
    | _ => none

/-- The largest number of instructions that an address can be away. -/
def offsetLimit : Nat := 0x8000000000000000

/-- A sign and a number of instructions; nothing stands for zero. -/
def offset : Parser Int :=
  let sign := choice [(exactly .plus).map fun _ => false, (exactly .minus).map fun _ => true]
  let signed := (sign.both integer).checked fun (negative, n) =>
    if n < offsetLimit then .ok (if negative then -(n : Int) else n)
    else .error ("offset " ++ toString n ++ " is too large")
  signed.optional.map (·.getD 0)

/-- An address. -/
def address : Parser AddressRef :=
  labelled "address reference" <| choice [
    ((exactly .doubleDollar).after offset).map (.relative .global ·),
    (((exactly .dollar).after (exactly .dot)).after name).map .block,
    ((((exactly .dollar).after name).before (exactly .colon)).both name).map
      fun (qualifier, label) => .imported qualifier label,
    ((exactly .dollar).after name).map .label,
    ((exactly .dollar).after offset).map (.relative .own ·)]

/-- An alias. -/
def aliasRef : Parser String := labelled "alias reference" ((exactly .hash).after name)

/-- The value of a constant of some kind: quoted text, or one word or number with its sign. -/
def injected : Parser (String → Operand) :=
  let quoted := oneOf fun
    | .quoted text => some text
    | _ => none
  let word := oneOf fun
    | .decimal n => some (Token.decimal n).text
    | .hex n => some (Token.hex n).text
    | .float whole part => some (Token.float whole part).text
    | .name text => some text
    | _ => none
  choice [
    quoted.map fun text kind => .quotedInjector kind text,
    ((exactly .minus).optional.both word).map fun (minus, text) kind =>
      .injector kind (if minus.isSome then "-" ++ text else text)]

/-- A constant with the name of its kind. -/
def injector : Parser Operand :=
  labelled "constant injector" <|
    ((((exactly .atSign).after name).before (exactly .equals)).both injected).map
      fun (kind, make) => make kind

/-- A number. -/
def number : Parser Operand :=
  let float := oneOf fun
    | .float whole part => some (Number.read whole.toList part.toList)
    | _ => none
  labelled "number" <| choice [integer.map .integer, float.map .float]

/-- A symbol of an imported object. -/
def imported : Parser Operand :=
  labelled "import reference" <|
    ((name.before (exactly .colon)).both name).map fun (qualifier, symbol) =>
      .imported qualifier symbol

/-- A leaf. -/
def operand : Parser Tree :=
  (choice [aliasRef.map .aliasRef, address.map .address, injector, imported, number]).spanned.map
    fun (span, operand) => .leaf span operand

/-- The brace before a chain in braces. -/
def opening : Parser Unit := labelled "braced expression" (exactly .leftBrace)

/-- The brace behind a chain in braces. -/
def closing : Parser Unit := exactly .rightBrace

/-- A binary operator. -/
def operator : Parser Operator :=
  labelled "arithmetic operator" <| oneOf fun
    | .plus => some .add
    | .minus => some .subtract
    | .asterisk => some .multiply
    | .solidus => some .divide
    | .caret => some .power
    | _ => none

/-- The cast behind an expression, with the place of its name. -/
def cast : Parser (Span × Cast) :=
  labelled "cast" <| (exactly .asWord).after <|
    name.spanned.map fun (span, text) => (span, Cast.ofName text)

/-- An operand of an instruction. -/
def instructionOperand : Parser InstructionOperand :=
  choice [address.map .address, aliasRef.map .aliasRef, integer.map .integer]

end Grammar

end LinkAsm
