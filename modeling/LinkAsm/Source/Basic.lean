import LinkAsm.Diagnostic.Log
import LinkAsm.NameMap
import LinkAsm.Source.Line

/-!
# Sources

The source of an object is the list of its lines that are something, each with its place and the
number of instructions before it.  Lines are read one by one, so the lines of two texts put together
are the lines of the first, followed by those of the second at shifted places.

* `Source.parse`: the lines of a text and the errors of those that are nothing.
-/

namespace LinkAsm

/-- A line with its place. -/
structure Line where
  kind : LineKind
  span : Span
  /-- The number of instructions of the object before this line. -/
  preceding : Nat
deriving DecidableEq, Repr

/-- The lines of an object. -/
structure Source where
  lines : List Line
  instructionCount : Nat
deriving DecidableEq, Repr

/-- The outcome of reading one line that is not blank. -/
structure Entry where
  span : Span
  outcome : Except LineError LineKind

namespace Entry

/-- The entry of a line that starts at byte `start`; none if it is blank but for a comment. -/
def read? (start : Nat) (line : List Char) : Option Entry :=
  let code := stripComment line
  let content := Text.trim code
  let first := start + (Text.byteLength code - Text.byteLength (Text.trimStart code))
  let span : Span := ⟨first, first + Text.byteLength content⟩
  if content.isEmpty then none else some ⟨span, LineKind.classify span content⟩

/-- The entries of lines, the first of which starts at byte `start`. -/
def readAll (start : Nat) : List (List Char) → List Entry
  | [] => []
  | line :: lines => (read? start line).toList ++ readAll (start + Text.byteLength line) lines

/-- The line of an entry, if it is something. -/
def kind? (e : Entry) : Option (Span × LineKind) :=
  match e.outcome with
  | .ok kind => some (e.span, kind)
  | .error _ => none

/-- The error of an entry, if it is nothing. -/
def error? (e : Entry) : Option Message :=
  match e.outcome with
  | .ok _ => none
  | .error err => some (.critical err.code e.span err.message)

end Entry

/-- The number of instructions that a line is. -/
def LineKind.instructions : LineKind → Nat
  | .instruction _ => 1
  | _ => 0

namespace Source

/-- Lines with the number of instructions before each; `n` come before the first. -/
def number (n : Nat) : List (Span × LineKind) → List Line
  | [] => []
  | (span, kind) :: rest => ⟨kind, span, n⟩ :: number (n + kind.instructions) rest

/-- The source that lines make. -/
def ofKinds (kinds : List (Span × LineKind)) : Source where
  lines := number 0 kinds
  instructionCount := kinds.foldr (fun k n => k.2.instructions + n) 0

/-- The source that a text is, and the errors of its lines. -/
def parse (text : List Char) : Source × Log :=
  let entries := Entry.readAll 0 (Text.lines text)
  (ofKinds (entries.filterMap Entry.kind?), Log.empty.addAll (entries.filterMap Entry.error?))

/-- The imports in their order. -/
def imports (s : Source) : List Import :=
  s.lines.filterMap fun line =>
    match line.kind with
    | .importing directive => some directive
    | _ => none

/-- The first import that a qualifier means. -/
def importFor? (s : Source) (qualifier : String) : Option Import :=
  s.imports.find? (·.answersTo qualifier)

/-- The names and positions of the lines with block labels. -/
def labels (s : Source) : List (String × Nat) :=
  s.lines.filterMap fun line =>
    match line.kind with
    | .label name => some (name, line.preceding)
    | _ => none

/-- The position of the first block label with a name. -/
def labelPosition? (s : Source) (name : String) : Option Nat := s.labels.lookup name

/-- The positions of the block labels; of two lines with one name the first counts. -/
def labelPositions (s : Source) : NameMap Nat := .ofList s.labels

/-- The positions of the embedded blocks; of two lines with one name the first counts. -/
def blockPositions (s : Source) : NameMap Nat :=
  .ofList (s.lines.filterMap fun line =>
    match line.kind with
    | .block name => some (name, line.preceding)
    | _ => none)

@[simp] theorem find?_labelPositions (s : Source) (name : String) :
    s.labelPositions.find? name = s.labelPosition? name :=
  NameMap.find?_ofList s.labels name

end Source

end LinkAsm
