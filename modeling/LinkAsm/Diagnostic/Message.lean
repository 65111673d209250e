import LinkAsm.Text.Span

/-!
# Messages

Nothing that goes wrong in an object stops the assembly.  It is recorded as a message: what happened
(its code), how bad it is (its severity), where (a span of the object's text, if there is a place)
and a text.
-/

namespace LinkAsm

/-- How bad a message is. -/
inductive Severity where
  | info
  | warning
  | critical
  | fatal
deriving DecidableEq, Repr

namespace Severity

/-- Whether the program has failed. -/
def isFailure : Severity → Bool
  | .info | .warning => false
  | .critical | .fatal => true

/-- The word for a severity. -/
def text : Severity → String
  | .info => "info"
  | .warning => "warning"
  | .critical => "error"
  | .fatal => "fatal"

end Severity

/-- What a message is about. -/
inductive Code where
  | malformedLine
  | unknownDirective
  | duplicateDefinition
  | malformedAlias
  | invalidCast
  | nonFiniteResult
  | valueOutOfRange
  | undefinedAlias
  | dependencyCycle
  | erroneousDependency
  | invalidInjector
  | unimplementedInjector
  | undeclaredImport
  | unresolvedExternal
  | unresolvedImport
  | invalidAddress
  | oversizedAddress
  | mockedAddress
  | oversizedValue
  | addressOverflow
  | invalidEntryPoint
  | invalidOption
deriving DecidableEq, Repr

namespace Code

/-- The short name of a code: `S` for lines, `A` for aliases, `L` for links, `R` for addresses and
`P` for the program. -/
def id : Code → String
  | .malformedLine => "S001"
  | .unknownDirective => "S002"
  | .duplicateDefinition => "S003"
  | .malformedAlias => "A001"
  | .invalidCast => "A002"
  | .nonFiniteResult => "A003"
  | .valueOutOfRange => "A004"
  | .undefinedAlias => "A005"
  | .dependencyCycle => "A006"
  | .erroneousDependency => "A007"
  | .invalidInjector => "A008"
  | .unimplementedInjector => "A009"
  | .undeclaredImport => "L001"
  | .unresolvedExternal => "L002"
  | .unresolvedImport => "L003"
  | .invalidAddress => "R001"
  | .oversizedAddress => "R002"
  | .mockedAddress => "R003"
  | .oversizedValue => "R004"
  | .addressOverflow => "R005"
  | .invalidEntryPoint => "P001"
  | .invalidOption => "P002"

/-- All codes. -/
def all : List Code :=
  [.malformedLine, .unknownDirective, .duplicateDefinition, .malformedAlias, .invalidCast,
    .nonFiniteResult, .valueOutOfRange, .undefinedAlias, .dependencyCycle, .erroneousDependency,
    .invalidInjector, .unimplementedInjector, .undeclaredImport, .unresolvedExternal,
    .unresolvedImport, .invalidAddress, .oversizedAddress, .mockedAddress, .oversizedValue,
    .addressOverflow, .invalidEntryPoint, .invalidOption]

/-- The code with a short name. -/
def ofId? (id : String) : Option Code := all.find? (·.id == id)

end Code

/-- A recorded event. -/
structure Message where
  code : Code
  severity : Severity
  range : Option Span
  text : String
deriving DecidableEq, Repr

namespace Message

/-- An error at a place. -/
def critical (code : Code) (range : Span) (text : String) : Message :=
  ⟨code, .critical, some range, text⟩

/-- Whether the message means that the program has failed. -/
def isFailure (m : Message) : Bool := m.severity.isFailure

/-- The heading of a message: its severity and code. -/
def heading (m : Message) : String := m.severity.text ++ " [" ++ m.code.id ++ "]"

/-- The message on one line. -/
def render (m : Message) : String :=
  let place := match m.range with
    | none => ""
    | some r => " at " ++ toString r.start ++ ".." ++ toString r.stop
  m.heading ++ place ++ ": " ++ m.text

/-- The message with its place moved `n` bytes to the right. -/
def shift (m : Message) (n : Nat) : Message := { m with range := m.range.map (·.shift n) }

end Message

end LinkAsm
