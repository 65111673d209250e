import LinkAsm.Expr.Basic
import LinkAsm.Pass.Context

/-!
# Resolving addresses

The address that a reference means in a pass: that of a block of the object, of a block label of an
imported object, or of the instruction some places away.

* `Site.resolve`: the address, and notes about it.
-/

namespace LinkAsm

/-- Why a reference means no address. -/
inductive AddressFailure where
  | undefinedLabel (label : String)
  | undefinedBlock (block : String)
  | undeclaredImport (qualifier : String)
  | unresolvedExternal (object label : String)
  | notALabel (object name : String) (kind : SymbolKind)
  | outOfRange (error : RangeError)
  /-- The instruction has only three bytes for the address. -/
  | oversized (address : Address)
deriving DecidableEq, Repr

namespace AddressFailure

/-- The code of a failure. -/
def code : AddressFailure → Code
  | .undefinedLabel _ | .undefinedBlock _ | .notALabel _ _ _ | .outOfRange _ => .invalidAddress
  | .undeclaredImport _ => .undeclaredImport
  | .unresolvedExternal _ _ => .unresolvedExternal
  | .oversized _ => .oversizedAddress

/-- The text of a failure. -/
def message : AddressFailure → String
  | .undefinedLabel label => "block label " ++ label ++ " is not defined in this object"
  | .undefinedBlock block => "embedded block ." ++ block ++ " is not defined in this object"
  | .undeclaredImport qualifier => "no import directive names " ++ qualifier
  | .unresolvedExternal object label =>
    "object " ++ object ++ " does not export block label " ++ label
  | .notALabel object name kind =>
    name ++ " in object " ++ object ++ " is an " ++ kind.text ++ ", not a block label"
  | .outOfRange error => "address is outside the address space: " ++ error.message
  | .oversized address =>
    "address " ++ address.text ++ " does not fit in the three bytes available in the instruction"

end AddressFailure

/-- What a reference means in a pass. -/
inductive Resolution where
  | resolved (address : Address)
  /-- The pass does not know enough. -/
  | deferred
  | failed (failure : AddressFailure)
deriving DecidableEq, Repr

namespace Resolution

/-- The resolution to a computed address. -/
def ofResult : Except RangeError Address → Resolution
  | .ok address => .resolved address
  | .error e => .failed (.outOfRange e)

/-- The resolution, if its address fits the three bytes of an instruction. -/
def narrowed : Resolution → Resolution
  | .resolved address =>
    if address.fitsIn .triByte then .resolved address else .failed (.oversized address)
  | other => other

end Resolution

namespace Site

/-- The address of the block at a position of the object. -/
def blockAddress (s : Site) (position : Nat) : Resolution :=
  match s.instructionAddress? position with
  | none => .deferred
  | some result => .ofResult result

/-- The address of the instruction `offset` places from an anchor. -/
def relativeAddress (s : Site) (anchor : Anchor) (offset : Int) (position : Nat) : Resolution :=
  let start : Nat := match anchor with
    | .own => s.index position
    | .global => s.context.precedingCount
  let index : Int := start + offset
  if index < 0 then .failed (.outOfRange .tooSmall)
  else .ofResult (s.context.origin.instruction index.toNat)

/-- The note about an address taken for one that is not there. -/
def mockNote (s : Site) (object label : String) (span : Span) : Message :=
  ⟨.mockedAddress, .info, some span, "object " ++ object ++ " is not part of the program; using address " ++
    s.context.origin.text ++ " for " ++ object ++ ":" ++ label⟩

/-- The address of a block label of an imported object. -/
def importedAddress (s : Site) (qualifier label : String) (span : Span) :
    Resolution × List Message :=
  match s.source.importFor? qualifier with
  | none => (.failed (.undeclaredImport qualifier), [])
  | some directive =>
    let object := directive.object
    let unresolved : Resolution := .failed (.unresolvedExternal object label)
    if object ∉ s.context.known then
      if s.context.mockExternals then
        (.resolved s.context.origin, [s.mockNote object label span])
      else (unresolved, [])
    else
      match s.context.exportOf? object label with
      | none => (unresolved, [])
      | some symbol =>
        match symbol.kind, symbol.value with
        | .aliasName, _ => (.failed (.notALabel object label symbol.kind), [])
        | .label, .word w => (.ofResult (Address.ofWord w), [])
        | .label, .deferred => (.deferred, [])
        | .label, .error => (unresolved, [])

/-- What a reference means, whatever room there is for it. -/
def resolveWide (s : Site) (ref : AddressRef) (position : Nat) (span : Span) :
    Resolution × List Message :=
  if s.context.isLocal then (.deferred, [])
  else
    match ref with
    | .label name =>
      match s.source.labelPosition? name with
      | some position => (s.blockAddress position, [])
      | none => (.failed (.undefinedLabel name), [])
    | .block name =>
      match s.context.blocks with
      | none => (.deferred, [])
      | some blocks =>
        match blocks.find? name with
        | some position => (s.blockAddress position, [])
        | none => (.failed (.undefinedBlock name), [])
    | .imported qualifier target => s.importedAddress qualifier target span
    | .relative anchor offset => (s.relativeAddress anchor offset position, [])

/-- What a reference means at a position of the object, and notes about it; `narrow` if there are
only three bytes for it. -/
def resolve (s : Site) (ref : AddressRef) (position : Nat) (narrow : Bool) (span : Span) :
    Resolution × List Message :=
  let (resolution, notes) := s.resolveWide ref position span
  (if narrow then resolution.narrowed else resolution, notes)

end Site

end LinkAsm
