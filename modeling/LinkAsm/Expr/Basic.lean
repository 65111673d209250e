import LinkAsm.Word.Basic
import LinkAsm.Text.Span

/-!
# Expressions

An alias stands for the value of an expression.  Its leaves are numbers, constants written with the
name of their kind, other aliases, symbols of imported objects, and addresses.  Operators have no
precedence: they combine from left to right, and braces group.  A cast may follow the whole.

`text` writes an expression with braces around every operator's two sides.
-/

namespace LinkAsm

/-- The place that a relative address counts from. -/
inductive Anchor where
  /-- The instruction itself. -/
  | own
  /-- The first instruction of the object, counted over the whole program. -/
  | global
deriving DecidableEq, Repr

/-- The ways to write an address. -/
inductive AddressRef where
  /-- `$label`: a block label of the object. -/
  | label (name : String)
  /-- `$.block`: an embedded block of the object. -/
  | block (name : String)
  /-- `$qualifier:label`: a block label of an imported object. -/
  | imported (qualifier target : String)
  /-- `$` or `$$` with a number of instructions. -/
  | relative (anchor : Anchor) (offset : Int)
deriving DecidableEq, Repr

/-- A binary operator. -/
inductive Operator where
  | add
  | subtract
  | multiply
  | divide
  | power
deriving DecidableEq, Repr

/-- A leaf of an expression. -/
inductive Operand where
  /-- `#name` -/
  | aliasRef (name : String)
  | address (ref : AddressRef)
  /-- `@kind=value` -/
  | injector (kind value : String)
  /-- `@kind="text"` -/
  | quotedInjector (kind text : String)
  /-- `qualifier:symbol` -/
  | imported (qualifier symbol : String)
  | integer (n : Nat)
  | float (x : Float)

/-- An expression without its cast; every node knows its place. -/
inductive Tree where
  | leaf (span : Span) (operand : Operand)
  | binary (span : Span) (op : Operator) (left right : Tree)

/-- What the value of an expression is turned into. -/
inductive Cast where
  | width (w : Width)
  | float
  | address
  /-- A name that is no cast. -/
  | unknown (name : String)
deriving DecidableEq, Repr

/-- An expression with the cast behind it and the place of its name. -/
structure Expr where
  tree : Tree
  cast : Option (Span × Cast)

/-- The operands of instructions that are resolved; all others are passed on as they are. -/
inductive InstructionOperand where
  | address (ref : AddressRef)
  | aliasRef (name : String)
  | integer (n : Nat)
deriving DecidableEq, Repr

/-- The place of a tree. -/
def Tree.span : Tree → Span
  | .leaf span _ => span
  | .binary span _ _ _ => span

/-- The operator with two sides, placed from the start of the left to the end of the right. -/
def Tree.join (left : Tree) (op : Operator) (right : Tree) : Tree :=
  .binary (left.span.through right.span) op left right

/-! ## Text -/

/-- The sign of an operator. -/
def Operator.text : Operator → String
  | .add => "+"
  | .subtract => "-"
  | .multiply => "*"
  | .divide => "/"
  | .power => "^"

/-- A signed number of instructions; zero is left out. -/
def offsetText (n : Int) : String :=
  if n = 0 then "" else if n < 0 then "-" ++ toString n.natAbs else "+" ++ toString n.natAbs

/-- An address as it is written. -/
def AddressRef.text : AddressRef → String
  | .label name => "$" ++ name
  | .block name => "$." ++ name
  | .imported qualifier target => "$" ++ qualifier ++ ":" ++ target
  | .relative .own offset => "$" ++ offsetText offset
  | .relative .global offset => "$$" ++ offsetText offset

/-- A leaf as it is written. -/
def Operand.text : Operand → String
  | .aliasRef name => "#" ++ name
  | .address ref => ref.text
  | .injector kind value => "@" ++ kind ++ "=" ++ value
  | .quotedInjector kind text => "@" ++ kind ++ "=\"" ++ text ++ "\""
  | .imported qualifier symbol => qualifier ++ ":" ++ symbol
  | .integer n => toString n
  | .float x => Number.text x

/-- A tree with braces around each operator's sides. -/
def Tree.text : Tree → String
  | .leaf _ operand => operand.text
  | .binary _ op left right =>
    "\x7b" ++ left.text ++ " " ++ op.text ++ " " ++ right.text ++ "\x7d"

namespace Cast

/-- The name of a cast. -/
def name : Cast → String
  | .width w => w.name
  | .float => "Float"
  | .address => "Address"
  | .unknown name => name

/-- The casts that have a meaning. -/
def known : List Cast :=
  [.width .byte, .width .doubleByte, .width .triByte, .width .quadByte, .float, .address]

/-- The cast with a name. -/
def ofName (name : String) : Cast := (known.find? (·.name == name)).getD (.unknown name)

/-- Whether the name is that of a cast. -/
def isKnown : Cast → Bool
  | .unknown _ => false
  | _ => true

theorem name_ofName (name : String) : (ofName name).name = name := by
  unfold ofName
  cases h : known.find? (·.name == name) with
  | none => rfl
  | some c => simpa using List.find?_some h

end Cast

/-- An expression with its cast. -/
def Expr.text (e : Expr) : String :=
  match e.cast with
  | none => e.tree.text
  | some (_, cast) => e.tree.text ++ " as " ++ cast.name

end LinkAsm
