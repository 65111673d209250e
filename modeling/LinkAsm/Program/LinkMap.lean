import LinkAsm.Program.Basic

/-!
# Link maps

The report of a program: its outcome and options, the build order, and for each object its addresses,
symbols, instructions and messages.  A program whose instructions have moved also lists their order.

* `Program.instructionAddress?`: where an instruction of the program stands.
* `Program.linkMap`: the report.
-/

namespace LinkAsm

/-- The line and column of a byte of a text; both count from one, columns in bytes. -/
def lineAndColumn (text : List Char) (offset : Nat) : Nat × Nat :=
  let before := (Text.takeBytes text offset).getD text
  let current := (before.reverse.takeWhile (· != '\n')).reverse
  (before.count '\n' + 1, Text.byteLength current + 1)

/-- A message with its place in the text of its object. -/
def Message.locate (text : List Char) (m : Message) : String :=
  let place := match m.range with
    | none => ""
    | some range =>
      let (line, column) := lineAndColumn text range.start
      " line " ++ toString line ++ " column " ++ toString column
  let quoted := match m.range.bind (·.extract? text) with
    | none => ""
    | some cs => " (at '" ++ String.ofList (Text.trim cs) ++ "')"
  m.heading ++ place ++ ": " ++ m.text ++ quoted

namespace LinkMap

/-- An address, or a dash where there is none. -/
def addressText (a : Option Address) : String := (a.map Address.text).getD "-"

/-- The messages of a log under a heading. -/
def messageLines (log : Log) (text : List Char) : List String :=
  if log.isEmpty then []
  else "Diagnostics:" :: log.messages.map fun m => "  " ++ m.locate text

/-- The addresses of blocks under a heading. -/
def blockLines (heading : String) (blocks : NameMap (Option Address)) : List String :=
  if blocks.isEmpty then []
  else
    (heading ++ ":") :: blocks.entries.map fun (name, address) =>
      "  " ++ Text.padRight 20 name ++ " " ++ addressText address

/-- An instruction with its position, its address and its text. -/
def instructionLine (text : List Char) (address : Option Address) (i : Instruction) : String :=
  let source := String.ofList ((i.span.extract? text).getD [])
  Text.padLeft 6 (toString i.position) ++ " " ++ Text.padRight 10 (addressText address) ++ "  " ++
    Text.padRight 30 source ++ "| " ++ i.text

/-- The instructions of an object under a heading; `address` gives the address of each. -/
def instructionLines (o : AssembledObject) (address : Nat → Option Address) : List String :=
  if o.result.instructions.isEmpty then []
  else
    "Instructions:" :: o.result.instructions.map fun i =>
      instructionLine o.text (address i.position) i

/-- The part of a report about an object. -/
def objectText (o : AssembledObject) (address : Nat → Option Address) : String :=
  let heading := ["Object " ++ o.name ++ " (" ++ o.result.scope.text ++ " pass):",
    "base " ++ addressText o.base ++ ", tail " ++ addressText o.tail ++ ", " ++ toString o.count ++
      " instruction(s)"]
  let symbols :=
    if o.result.symbols.isEmpty then "" else "Symbol Table:\n" ++ o.result.symbols.render
  Text.unlines (heading ++ blockLines "Blocks" o.result.labels ++
      blockLines "Embedded blocks" o.result.blocks) ++
    symbols ++ Text.unlines (instructionLines o address ++ messageLines o.log o.text)

/-- The order of instructions that have moved. -/
def orderText (order : InstructionOrder) : String :=
  Text.unlines ("" :: "Instruction order:" :: order.placements.map fun p =>
    "  " ++ Text.padLeft 6 (toString p.natural) ++ " -> " ++
      Text.padLeft 6 (toString p.reordered) ++ "  " ++ p.object ++ "[" ++ toString p.line ++ "]")

end LinkMap

namespace Program

/-- The address of the instruction at a position of an object; `moved` if instructions of the program
have moved. -/
def addressIn? (p : Program) (moved : Bool) (o : AssembledObject) (position : Nat) :
    Option Address :=
  if moved then do
    let placement ← p.order.byLocation? o.name position
    let origin ← (Address.ofInt p.options.baseOffset).toOption
    (origin.instruction placement.reordered).toOption
  else o.base.bind fun base => (base.instruction position).toOption

/-- The address of the instruction at a position of an object. -/
def instructionAddress? (p : Program) (o : AssembledObject) (position : Nat) : Option Address :=
  p.addressIn? (!p.order.isNatural) o position

/-- The report of a program. -/
def linkMap (p : Program) : String :=
  let moved := !p.order.isNatural
  let heading := ["Assembly " ++ (if p.succeeded then "succeeded" else "failed"),
    "Options: " ++ p.options.text, "Build order: " ++ ", ".intercalate p.buildOrder]
  let unresolved := p.unresolved.map fun u => "Unresolved: " ++ u.text
  let entry := "Entry point: " ++ (p.entryPoint.map EntryPoint.text).getD "default"
  Text.unlines (heading ++ unresolved ++ LinkMap.messageLines p.log [] ++ [entry]) ++
    String.join (p.objects.map fun o => "\n" ++ LinkMap.objectText o (p.addressIn? moved o)) ++
    (if moved then LinkMap.orderText p.order else "")

end Program

end LinkAsm
