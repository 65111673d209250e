import LinkAsm.Address
import LinkAsm.Diagnostic.Message

/-!
# Options

How a program is to be assembled: where it starts, at which address it is placed, whether values too
large for their instruction are errors, and whether objects that are not there may be imported.

* `Options.validate`: the address of the program, or the message that stops the assembly.
-/

namespace LinkAsm

/-- The block label where the program starts. -/
structure EntryPoint where
  object : String
  label : String
deriving DecidableEq, Repr

namespace EntryPoint

/-- The entry point as it is written. -/
def text (e : EntryPoint) : String := e.object ++ ":" ++ e.label

/-- The entry point in `object:label`, split at the first colon; neither part is empty. -/
def parse? (s : String) : Option EntryPoint :=
  let cs := s.toList
  let object := cs.takeWhile (· != ':')
  let label := (cs.dropWhile (· != ':')).drop 1
  if object.isEmpty || label.isEmpty then none
  else some ⟨String.ofList object, String.ofList label⟩

/-- The text of the error for a text that is no entry point. -/
def parseError (s : String) : String := "entry point '" ++ s ++ "' should have the form OBJECT:LABEL"

end EntryPoint

/-- What to do with a value that its instruction cannot hold. -/
inductive OversizedPolicy where
  | reject
  | warn
deriving DecidableEq, Repr

namespace OversizedPolicy

/-- The word for a policy. -/
def text : OversizedPolicy → String
  | .reject => "reject"
  | .warn => "warn"

/-- The policy with a word. -/
def ofText? : String → Option OversizedPolicy
  | "reject" => some .reject
  | "warn" => some .warn
  | _ => none

/-- The severity of the message about such a value. -/
def severity : OversizedPolicy → Severity
  | .reject => .critical
  | .warn => .warning

end OversizedPolicy

/-- How a program is to be assembled. -/
structure Options where
  entryPoint : Option EntryPoint := none
  baseOffset : Int := 0
  oversized : OversizedPolicy := .reject
  mockExternals : Bool := false
deriving DecidableEq, Repr

namespace Options

/-- The options on one line. -/
def text (o : Options) : String :=
  let entry := match o.entryPoint with
    | some e => "entry point " ++ e.text ++ ", "
    | none => "default entry point, "
  entry ++ "base address offset " ++ toString o.baseOffset ++ ", oversized inline values: " ++
    o.oversized.text ++ ", mock external addresses: " ++ (if o.mockExternals then "true" else "false")

/-- The address of the program, if the options make sense for these objects. -/
def validate (o : Options) (objects : List String) : Except Message Address := do
  let origin ← match Address.ofInt o.baseOffset with
    | .ok a => pure a
    | .error e =>
      throw ⟨.invalidOption, .fatal, none, "base address offset " ++ toString o.baseOffset ++
        " is not a valid address: " ++ e.message⟩
  match o.entryPoint with
  | none => pure origin
  | some entry =>
    if entry.object ∈ objects then pure origin
    else
      throw ⟨.invalidEntryPoint, .fatal, none, "entry point " ++ entry.text ++ " names object " ++
        entry.object ++ " which is not part of the program"⟩

end Options

end LinkAsm
