import LinkAsm.Diagnostic.Message
import LinkAsm.Text.Basic
import LinkAsm.Token.Basic

/-!
# Lines

A line of an object, without its comment, is a block label `name:`, an embedded block `.name:`, a
directive `?alias` or `?import`, or an instruction with operands between commas.  Anything else is
an error of the line and concerns no other.

* `LineKind.classify`: what a trimmed line is.
* `stripComment`: a line without its comment.
-/

namespace LinkAsm

/-- `?import object`, `?import name = object` or `?import name = object:symbol`. -/
structure Import where
  /-- The name that the object or symbol has here. -/
  localName : Option String
  object : String
  symbol : Option String
  span : Span
deriving DecidableEq, Repr

/-- `?alias name = expression`. -/
structure AliasDefinition where
  name : String
  expression : List Char
  /-- The place of the expression in the object's text. -/
  start : Nat
deriving DecidableEq, Repr

/-- An operand as it is written. -/
structure OperandText where
  text : List Char
  span : Span
deriving DecidableEq, Repr

/-- An instruction as it is written. -/
structure InstructionText where
  mnemonic : String
  operands : List OperandText
deriving DecidableEq, Repr

/-- What a line is. -/
inductive LineKind where
  | label (name : String)
  | block (name : String)
  | aliasDefinition (definition : AliasDefinition)
  | importing (directive : Import)
  | instruction (text : InstructionText)
deriving DecidableEq, Repr

/-- Why a line is nothing. -/
inductive LineError where
  | malformedAlias
  | malformedImport
  | unknownDirective (name : String)
  | emptyOperand
  | unreadable (line : String)
deriving DecidableEq, Repr

namespace LineError

/-- The code of a line error. -/
def code : LineError → Code
  | .unknownDirective _ => .unknownDirective
  | _ => .malformedLine

/-- The text of a line error. -/
def message : LineError → String
  | .malformedAlias => "alias directives have the form '?alias NAME = EXPRESSION'"
  | .malformedImport =>
    "import directives have the form '?import OBJECT', '?import NAME = OBJECT' or " ++
      "'?import NAME = OBJECT:SYMBOL'"
  | .unknownDirective name => "unknown directive '?" ++ name ++ "'"
  | .emptyOperand => "instruction has an empty operand"
  | .unreadable line => "cannot understand line '" ++ line ++ "'"

end LineError

/-! ## Imports and instructions -/

/-- What an object needs: another object, and perhaps one symbol of it. -/
structure Requirement where
  object : String
  symbol : Option String
deriving DecidableEq, Repr

/-- The text of a requirement. -/
def Requirement.text (r : Requirement) : String :=
  match r.symbol with
  | none => r.object
  | some symbol => r.object ++ ":" ++ symbol

namespace Import

/-- Whether a qualifier means the imported object.  The object's name always does; its local name
does where the whole object is imported. -/
def answersTo (i : Import) (qualifier : String) : Bool :=
  i.object == qualifier || (i.symbol.isNone && i.localName == some qualifier)

/-- What the directive requires. -/
def requirement (i : Import) : Requirement := ⟨i.object, i.symbol⟩

end Import

/-- The mnemonic of data: its operand takes all four bytes of the instruction. -/
def wordMnemonic : String := "word"

/-- The number of bytes that an instruction has for an operand's value. -/
def InstructionText.inlineBytes (i : InstructionText) : Nat :=
  if i.mnemonic.toList.map Char.toLower = wordMnemonic.toList then 4 else 3

/-! ## Comments -/

/-- Where a scan for the start of a comment stands. -/
inductive QuoteState where
  | outside
  | inside
  /-- Behind a backslash in quotes. -/
  | escaped
deriving DecidableEq, Repr

/-- A line up to the first semicolon outside of quotes. -/
def uncommented : QuoteState → List Char → List Char
  | _, [] => []
  | .escaped, c :: cs => c :: uncommented .inside cs
  | .inside, c :: cs =>
    c :: uncommented (if c = '\\' then .escaped else if c = '"' then .outside else .inside) cs
  | .outside, c :: cs =>
    if c = ';' then [] else c :: uncommented (if c = '"' then .inside else .outside) cs

/-- A line without its comment. -/
def stripComment (line : List Char) : List Char := uncommented .outside line

/-! ## Classification -/

/-- The name at the front of a text, and what follows it. -/
def takeName : List Char → Option (String × List Char)
  | [] => none
  | c :: cs =>
    if isNameStart c then
      some (String.ofList (c :: cs.takeWhile isNameChar), cs.dropWhile isNameChar)
    else none

/-- The name in `name:`, with blanks before the colon. -/
def labelName? (line : List Char) : Option String :=
  match takeName line with
  | some (name, rest) => if Text.trimStart rest = [':'] then some name else none
  | none => none

/-- What follows at least one blank, from its first character that is none. -/
def afterBlanks? : List Char → Option (List Char)
  | [] => none
  | c :: cs => if Text.isBlank c then some (Text.trimStart cs) else none

/-- What follows `mark`, with blanks on both sides of it. -/
def afterMark? (mark : Char) (text : List Char) : Option (List Char) :=
  match Text.trimStart text with
  | [] => none
  | c :: cs => if c = mark then some (Text.trimStart cs) else none

/-- The definition in `name = expression`, which ends at byte `stop`. -/
def AliasDefinition.read? (stop : Nat) (text : List Char) : Option AliasDefinition := do
  let (name, rest) ← takeName (← afterBlanks? text)
  let expression ← afterMark? '=' rest
  if expression.isEmpty then none
  else some ⟨name, expression, stop - Text.byteLength expression⟩

/-- The directive in `object`, `name = object` or with a `:symbol` at the end. -/
def Import.read? (span : Span) (text : List Char) : Option Import := do
  let (first, rest) ← takeName (← afterBlanks? text)
  let (localName, object, rest) ← match afterMark? '=' rest with
    | none => some (none, first, rest)
    | some rest => (takeName rest).map fun (object, rest) => (some first, object, rest)
  let symbol ← match rest with
    | [] => some none
    | _ :: _ =>
      match (afterMark? ':' rest).bind takeName with
      | some (symbol, []) => some (some symbol)
      | _ => none
  some ⟨localName, object, symbol, span⟩

/-- The pieces of a text between commas. -/
def splitCommas : List Char → List (List Char)
  | [] => [[]]
  | c :: cs =>
    match splitCommas cs with
    | [] => [[c]]
    | piece :: pieces => if c = ',' then [] :: piece :: pieces else (c :: piece) :: pieces

/-- The operands that pieces between commas hold, the first of which starts at byte `start`. -/
def operandsOf (start : Nat) : List (List Char) → Option (List OperandText)
  | [] => some []
  | piece :: pieces =>
    let text := Text.trim piece
    let first := start + (Text.byteLength piece - Text.byteLength (Text.trimStart piece))
    if text.isEmpty then none
    else
      (operandsOf (start + Text.byteLength piece + 1) pieces).map
        (⟨text, ⟨first, first + Text.byteLength text⟩⟩ :: ·)

/-- Characters of a mnemonic after the first. -/
def isMnemonicChar (c : Char) : Bool := isNameChar c || c == '.'

/-- The instruction that a line is, which ends at byte `stop`. -/
def InstructionText.read (stop : Nat) (line : List Char) : Except LineError InstructionText :=
  match line with
  | [] => .error (.unreadable "")
  | c :: cs =>
    let mnemonic := String.ofList (c :: cs.takeWhile isMnemonicChar)
    let rest := cs.dropWhile isMnemonicChar
    if !isNameStart c then .error (.unreadable (String.ofList line))
    else if rest.isEmpty then .ok ⟨mnemonic, []⟩
    else
      match afterBlanks? rest with
      | none => .error (.unreadable (String.ofList line))
      | some text =>
        match operandsOf (stop - Text.byteLength text) (splitCommas text) with
        | none => .error .emptyOperand
        | some operands => .ok ⟨mnemonic, operands⟩

/-- The directive with a question mark before it; `span` is the place of the line. -/
def LineKind.directive (span : Span) (text : List Char) : Except LineError LineKind :=
  let isWordChar (c : Char) : Bool := c.isAlpha || c == '_'
  let rest := text.dropWhile isWordChar
  match String.ofList (text.takeWhile isWordChar) with
  | "alias" =>
    match AliasDefinition.read? span.stop rest with
    | some definition => .ok (.aliasDefinition definition)
    | none => .error .malformedAlias
  | "import" =>
    match Import.read? span rest with
    | some directive => .ok (.importing directive)
    | none => .error .malformedImport
  | word => .error (.unknownDirective word)

/-- What a line is that stands at `span` and neither starts nor ends with a blank. -/
def LineKind.classify (span : Span) (line : List Char) : Except LineError LineKind :=
  match labelName? line with
  | some name => .ok (.label name)
  | none =>
    match line with
    | '.' :: cs =>
      match labelName? cs with
      | some name => .ok (.block name)
      | none => .error (.unreadable (String.ofList line))
    | '?' :: cs => LineKind.directive span cs
    | _ => (InstructionText.read span.stop line).map .instruction

end LinkAsm
