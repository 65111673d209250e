import LinkAsm.Expr.Parser
import LinkAsm.Pass.WorkList

/-!
# The pass over an object

A pass defines the symbols of an object in the order of their lines, gives its aliases their values
and resolves the operands of its instructions.

* `Definitions.ofLines`: the symbols, with the aliases that are still to be evaluated.
* `Site.resolveOperand`: an operand, and messages about it.
* `Site.extract`: the whole pass.
-/

namespace LinkAsm

/-! ## Definitions -/

/-- What the lines of an object define. -/
structure Definitions where
  symbols : SymbolTable
  /-- The addresses of the block labels. -/
  labels : NameMap (Option Address)
  /-- The addresses of the embedded blocks. -/
  blocks : NameMap (Option Address)
  /-- The aliases to be evaluated, in the order of their lines. -/
  pending : List PendingAlias
  /-- The aliases whose expression cannot be read. -/
  malformed : NameMap AliasValue
  log : Log

namespace Definitions

/-- Nothing is defined yet. -/
def empty (object : String) : Definitions := ⟨.empty object, .empty, .empty, [], .empty, .empty⟩

/-- The message about a symbol that has a definition already. -/
def duplicateSymbol (name : String) (span : Span) : Message :=
  .critical .duplicateDefinition span (name ++ " is already defined; this definition is ignored")

/-- The message about an embedded block that has a definition already. -/
def duplicateBlock (name : String) (span : Span) : Message :=
  .critical .duplicateDefinition span ("embedded block ." ++ name ++ " is already defined")

/-- The value of a block label or embedded block, and the message if it has no address. -/
def blockValue (s : Site) (line : Line) : SymbolValue × List Message :=
  match s.instructionAddress? line.preceding with
  | none => (.deferred, [])
  | some (.ok address) => (.word address.toWord, [])
  | some (.error e) =>
    (.error, [.critical .addressOverflow line.span
      ("block address is outside the address space: " ++ e.message)])

/-- The address in a value. -/
def addressIn : SymbolValue → Option Address
  | .word w => (Address.ofWord w).toOption
  | .deferred | .error => none

/-- A block label. -/
def addLabel (s : Site) (d : Definitions) (line : Line) (name : String) : Definitions :=
  let (value, messages) := blockValue s line
  let log := d.log.addAll messages
  if d.symbols.defines name then { d with log := log.add (duplicateSymbol name line.span) }
  else
    { d with
      symbols := d.symbols.define ⟨.label, name, line.span, value, true⟩
      labels := d.labels.insert name (addressIn value)
      log }

/-- An embedded block. -/
def addBlock (s : Site) (d : Definitions) (line : Line) (name : String) : Definitions :=
  if d.blocks.contains name then { d with log := d.log.add (duplicateBlock name line.span) }
  else
    let (value, messages) := blockValue s line
    { d with
      blocks := d.blocks.insert name (addressIn value)
      log := d.log.addAll messages }

/-- An alias. -/
def addAlias (d : Definitions) (line : Line) (a : AliasDefinition) : Definitions :=
  if d.symbols.defines a.name then { d with log := d.log.add (duplicateSymbol a.name line.span) }
  else
    let symbols := d.symbols.define ⟨.aliasName, a.name, line.span, .deferred, true⟩
    match Expr.parse a.expression with
    | .ok expr =>
      { d with symbols, pending := d.pending ++ [⟨a.name, expr, a.start, line.preceding⟩] }
    | .error failure =>
      let error : AliasError := ⟨failure.span.shift a.start, .malformed failure.message⟩
      { d with
        symbols
        malformed := d.malformed.insert a.name (.error error)
        log := d.log.add error.report }

/-- An import.  That of a symbol under a local name makes an alias which is not exported. -/
def addImport (d : Definitions) (line : Line) (i : Import) : Definitions :=
  match i.localName, i.symbol with
  | some name, some symbol =>
    if d.symbols.defines name then { d with log := d.log.add (duplicateSymbol name line.span) }
    else
      { d with
        symbols := d.symbols.define ⟨.aliasName, name, line.span, .deferred, false⟩
        pending := d.pending ++
          [⟨name, ⟨.leaf line.span (.imported i.object symbol), none⟩, 0, line.preceding⟩] }
  | _, _ => d

/-- What a line adds. -/
def addLine (s : Site) (d : Definitions) (line : Line) : Definitions :=
  match line.kind with
  | .label name => d.addLabel s line name
  | .block name => d.addBlock s line name
  | .aliasDefinition a => d.addAlias line a
  | .importing i => d.addImport line i
  | .instruction _ => d

/-- What all lines of the object define. -/
def ofLines (s : Site) : Definitions := s.source.lines.foldl (addLine s) (empty s.object)

end Definitions

/-! ## Instructions -/

/-- An operand of an instruction in a pass. -/
inductive OperandValue where
  | address (a : Address)
  | value (w : Word)
  | deferred
  /-- Text that is passed on as it is, such as the name of a register. -/
  | raw (text : String)
  | error
deriving DecidableEq, Repr

/-- The text of an operand. -/
def OperandValue.text : OperandValue → String
  | .address a => a.text
  | .value w => w.text
  | .deferred => "<deferred>"
  | .raw text => text
  | .error => "<error>"

/-- An instruction with its operands. -/
structure Instruction where
  mnemonic : String
  operands : List OperandValue
  span : Span
  /-- The number of instructions of the object before this one. -/
  position : Nat
deriving DecidableEq, Repr

/-- The text of an instruction. -/
def Instruction.text (i : Instruction) : String :=
  match i.operands with
  | [] => i.mnemonic
  | _ :: _ => i.mnemonic ++ " " ++ ", ".intercalate (i.operands.map OperandValue.text)

namespace OperandValue

/-- An operand that fails, and the message about it. -/
def fail (code : Code) (span : Span) (text : String) : OperandValue × List Message :=
  (.error, [.critical code span text])

/-- A value in an instruction that has `bytes` bytes for it. -/
def inlined (policy : OversizedPolicy) (w : Word) (bytes : Nat) (span : Span) :
    OperandValue × List Message :=
  let width : Width := if bytes = 3 then .triByte else .quadByte
  if width.holds w.bits then (.value w, [])
  else
    let message : Message := ⟨.oversizedValue, policy.severity, some span, "value " ++ w.text ++
      " does not fit in the " ++ toString bytes ++ " bytes available in the instruction"⟩
    (if message.isFailure then .error else .value w, [message])

end OperandValue

namespace Site

/-- An operand of an instruction at a position of the object, and messages about it. -/
def resolveOperand (s : Site) (policy : OversizedPolicy) (values : NameMap AliasValue)
    (instruction : InstructionText) (position : Nat) (operand : OperandText) :
    OperandValue × List Message :=
  let bytes := instruction.inlineBytes
  let fail (code : Code) (text : String) := OperandValue.fail code operand.span text
  let source := String.ofList operand.text
  match InstructionOperand.parse operand.text with
  | .ok (.address ref) =>
    match s.resolve ref position (bytes < 4) operand.span with
    | (.resolved address, notes) => (.address address, notes)
    | (.deferred, notes) => (.deferred, notes)
    | (.failed failure, notes) =>
      (.error, notes ++ [.critical failure.code operand.span failure.message])
  | .ok (.aliasRef name) =>
    match values.find? name with
    | some (.word w) => OperandValue.inlined policy w bytes operand.span
    | some .deferred => (.deferred, [])
    | some (.error _) => fail .erroneousDependency (name ++ " has an erroneous value")
    | some (.dependsOn _) | none => fail .undefinedAlias ("alias " ++ name ++ " is not defined")
  | .ok (.integer n) =>
    match Word.ofNat .quadByte n with
    | .ok w => OperandValue.inlined policy w bytes operand.span
    | .error e =>
      fail .valueOutOfRange ("literal " ++ toString n ++ " is out of range: " ++ e.message)
  | .error failure =>
    match operand.text with
    | '$' :: _ =>
      fail .invalidAddress ("malformed address reference '" ++ source ++ "': " ++ failure.message)
    | '#' :: _ =>
      fail .malformedAlias ("malformed alias reference '" ++ source ++ "': " ++ failure.message)
    | _ => (.raw source, [])

/-- The instruction that a line is, and messages about its operands. -/
def resolveLine? (s : Site) (policy : OversizedPolicy) (values : NameMap AliasValue) (line : Line) :
    Option (Instruction × List Message) :=
  match line.kind with
  | .instruction i =>
    let resolved := i.operands.map (s.resolveOperand policy values i line.preceding)
    some (⟨i.mnemonic, resolved.map (·.1), line.span, line.preceding⟩, resolved.flatMap (·.2))
  | _ => none

end Site

/-! ## The pass -/

/-- What a pass over an object finds. -/
structure PassResult where
  scope : Scope
  symbols : SymbolTable
  instructions : List Instruction
  /-- The addresses of the block labels; none where the pass knows none. -/
  labels : NameMap (Option Address)
  /-- The addresses of the embedded blocks; none where the pass knows none. -/
  blocks : NameMap (Option Address)
  log : Log

/-- The pass over an object. -/
def Site.extract (s : Site) (policy : OversizedPolicy) : PassResult :=
  let d := Definitions.ofLines s
  let (values, log) := s.evaluateAliases d.pending d.malformed d.log
  let symbols := values.entries.foldl
    (fun t (name, value) => t.setValue name value.toSymbolValue) d.symbols
  let resolved := s.source.lines.filterMap (s.resolveLine? policy values)
  { scope := s.context.scope
    symbols
    instructions := resolved.map (·.1)
    labels := d.labels
    blocks := d.blocks
    log := log.addAll (resolved.flatMap (·.2)) }

end LinkAsm
