import LinkAsm.Order.Build
import LinkAsm.Pass.Extract

/-!
# Objects of a program

An object goes through its passes and keeps what the last of them found, together with the messages
of all of them.  Objects are placed one behind the other, four bytes for each instruction.

* `AssembledObject.place`: the addresses of objects in build order.
* `AssembledObject.runPass`: a pass over objects in build order, each seeing the symbols of those
  before it.
-/

namespace LinkAsm

/-- An object with what is known of it. -/
structure AssembledObject where
  name : String
  text : List Char
  source : Source
  /-- The address of the first instruction. -/
  base : Option Address
  /-- The address of the last byte of the last instruction. -/
  tail : Option Address
  /-- What the last pass found. -/
  result : PassResult
  /-- The messages of all passes. -/
  log : Log

namespace AssembledObject

/-- The number of instructions. -/
def count (o : AssembledObject) : Nat := o.source.instructionCount

/-- What the object requires. -/
def demand (o : AssembledObject) : Demand := ⟨o.name, o.source.imports.map Import.requirement⟩

/-- The instructions and block labels of the object. -/
def layout (o : AssembledObject) : Layout := ⟨o.name, o.count, o.source.labelPositions⟩

/-- The object after another pass. -/
def record (o : AssembledObject) (result : PassResult) : AssembledObject :=
  { o with result, log := o.log.merge result.log }

/-- The object after its local pass. -/
def ofText (known : List String) (options : Options) (name : String) (text : List Char) :
    AssembledObject :=
  let (source, log) := Source.parse text
  let site : Site := ⟨.localTo known options.mockExternals, name, source⟩
  let result := site.extract options.oversized
  { name, text, source, base := none, tail := none, result, log := log.merge result.log }

/-- The message about an import that keeps the object out of the build order.  It stands at the
first import with that requirement. -/
def unresolvedMessage (o : AssembledObject) (r : Requirement) : Message :=
  let directive := o.source.imports.find? (·.requirement == r)
  ⟨.unresolvedImport, .critical, directive.map Import.span, "import of " ++ r.text ++
    " cannot be satisfied; the object is missing or the imports form a cycle"⟩

/-- The object with the messages about its imports that keep it out of the build order. -/
def reportUnresolved (unresolved : List Unresolved) (o : AssembledObject) : AssembledObject :=
  let own := unresolved.filter (·.object == o.name)
  { o with log := o.log.addAll (own.map fun u => o.unresolvedMessage u.requirement) }

/-- The message about an object that memory has no room for. -/
def overflowMessage (o : AssembledObject) (start : Nat) : Message :=
  ⟨.addressOverflow, .critical, none, "object " ++ o.name ++ " (at offset 0x" ++ Text.lowerHex start ++
    ", " ++ toString o.count ++ " instructions) extends beyond the end of the address space"⟩

/-- The object placed at byte `start`.  Without instructions it has no tail; one that does not fit
into memory has neither base nor tail. -/
def placeAt (start : Nat) (o : AssembledObject) : AssembledObject :=
  let base := (Address.ofNat start).toOption
  if o.count = 0 then { o with base, tail := none }
  else
    match base, (Address.ofNat (start + Address.instructionBytes * o.count - 1)).toOption with
    | some base, some tail => { o with base := some base, tail := some tail }
    | _, _ => { o with base := none, tail := none, log := o.log.add (o.overflowMessage start) }

/-- Objects placed one behind the other from byte `start` on. -/
def place (start : Nat) : List AssembledObject → List AssembledObject
  | [] => []
  | o :: os => o.placeAt start :: place (start + Address.instructionBytes * o.count) os

/-- What is the same for all objects of a pass. -/
structure PassSettings where
  scope : Scope
  options : Options
  origin : Address
  known : List String
  order : Option InstructionOrder

/-- What a pass knows at an object with the given objects before it. -/
def context (settings : PassSettings) (count : Nat) (preceding : List SymbolTable)
    (o : AssembledObject) : Context where
  scope := settings.scope
  precedingCount := count
  preceding := preceding
  base := o.base
  origin := settings.origin
  order := settings.order
  blocks := some o.source.blockPositions
  mockExternals := settings.options.mockExternals
  known := settings.known

/-- A pass over objects in build order, behind objects with `count` instructions and the tables
`preceding`. -/
def runFrom (settings : PassSettings) (count : Nat) (preceding : List SymbolTable) :
    List AssembledObject → List AssembledObject
  | [] => []
  | o :: os =>
    let site : Site := ⟨o.context settings count preceding, o.name, o.source⟩
    let result := site.extract settings.options.oversized
    o.record result :: runFrom settings (count + o.count) (preceding ++ [result.symbols]) os

/-- A pass over all objects in build order. -/
def runPass (settings : PassSettings) (os : List AssembledObject) : List AssembledObject :=
  runFrom settings 0 [] os

end AssembledObject

end LinkAsm
