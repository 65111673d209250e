import LinkAsm.Order.Instruction
import LinkAsm.Source.Basic
import LinkAsm.Symbol

/-!
# What a pass knows

An object is assembled in up to three passes.  The local pass knows the object alone and defers
every address.  The global pass also knows where the object is placed and the symbols of the objects
before it.  If the program starts with another block than its first, a last pass knows the order
into which all instructions are brought.

* `Site.instructionAddress?`: the address of an instruction of the object, once it is known.
-/

namespace LinkAsm

/-- The passes. -/
inductive Scope where
  | localPass
  | globalPass
  | postGlobalPass
deriving DecidableEq, Repr

/-- The word for a pass. -/
def Scope.text : Scope → String
  | .localPass => "local"
  | .globalPass => "global"
  | .postGlobalPass => "post-global"

/-- What a pass over one object knows of the program. -/
structure Context where
  scope : Scope
  /-- The number of instructions of the objects before this one. -/
  precedingCount : Nat
  /-- The symbols of the objects before this one. -/
  preceding : List SymbolTable
  /-- The address of the object's first instruction. -/
  base : Option Address
  /-- The address of the program's first instruction. -/
  origin : Address
  /-- The order of the program's instructions, if some have moved. -/
  order : Option InstructionOrder
  /-- The positions of the object's embedded blocks. -/
  blocks : Option (NameMap Nat)
  /-- Whether objects that are not part of the program may be imported. -/
  mockExternals : Bool
  /-- The objects of the program. -/
  known : List String

namespace Context

/-- The context of a local pass. -/
def localTo (known : List String) (mockExternals : Bool) : Context where
  scope := .localPass
  precedingCount := 0
  preceding := []
  base := none
  origin := ⟨0⟩
  order := none
  blocks := none
  mockExternals := mockExternals
  known := known

/-- Whether the pass knows the object alone. -/
def isLocal (c : Context) : Bool := c.scope == .localPass

/-- The symbols of an object before this one. -/
def tableOf? (c : Context) (object : String) : Option SymbolTable :=
  c.preceding.find? (·.object == object)

/-- The exported symbol of an object before this one. -/
def exportOf? (c : Context) (object name : String) : Option Symbol :=
  (c.tableOf? object).bind (·.findExported? name)

/-- The number in the program of the instruction at a position of an object with `count`
instructions.  The end of the object counts as the place behind its last instruction. -/
def indexOf (c : Context) (object : String) (position count : Nat) : Nat :=
  let natural := c.precedingCount + position
  match c.order with
  | none => natural
  | some order =>
    if position < count then
      ((order.byLocation? object position).map (·.reordered)).getD natural
    else if 0 < count then
      ((order.byLocation? object (count - 1)).map (·.reordered + 1)).getD natural
    else natural

/-- The address of the instruction at a position of an object with `count` instructions; none if the
object has no place yet. -/
def addressOf? (c : Context) (object : String) (position count : Nat) :
    Option (Except RangeError Address) :=
  c.base.map fun base =>
    match c.order with
    | none => base.instruction position
    | some _ => c.origin.instruction (c.indexOf object position count)

theorem isLocal_eq_false {c : Context} (h : c.scope ≠ .localPass) : c.isLocal = false :=
  beq_eq_false_iff_ne.mpr h

theorem exportOf?_of_tableOf? {c : Context} {object : String} {t : SymbolTable}
    (h : c.tableOf? object = some t) (name : String) :
    c.exportOf? object name = t.findExported? name := by
  rw [exportOf?, h, Option.bind_some]

end Context

/-- An object in a pass. -/
structure Site where
  context : Context
  object : String
  source : Source

namespace Site

/-- The number in the program of the instruction at a position of the object. -/
def index (s : Site) (position : Nat) : Nat :=
  s.context.indexOf s.object position s.source.instructionCount

/-- The address of the instruction at a position of the object, once it has a place. -/
def instructionAddress? (s : Site) (position : Nat) : Option (Except RangeError Address) :=
  s.context.addressOf? s.object position s.source.instructionCount

end Site

end LinkAsm
