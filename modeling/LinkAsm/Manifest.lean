import LinkAsm.NameMap
import LinkAsm.Options
import LinkAsm.Path
import LinkAsm.Toml.Document

/-!
# Project manifests

A manifest is a document with a table `objects`, which gives the file of each object, and optionally
a table `options`.  Nothing else may stand in it.

* `Manifest.parse`: the manifest of a text.
* `Manifest.paths`: where the files are.
* `Manifest.options`: the options, with defaults for those that are not given.
-/

namespace LinkAsm

/-- The options of a manifest; each may be missing. -/
structure ManifestOptions where
  entryPoint : Option String := none
  baseOffset : Option Int := none
  oversized : Option OversizedPolicy := none
  mockExternals : Option Bool := none
deriving DecidableEq, Repr

/-- A manifest. -/
structure Manifest where
  objects : NameMap String
  settings : ManifestOptions
deriving DecidableEq, Repr

/-- Why a text is no manifest of a program. -/
inductive ManifestError where
  /-- It is not well formed, or something in it has no place there. -/
  | malformed
  | noObjects
  /-- The text of the entry point is none. -/
  | entryPoint (text : String)
deriving DecidableEq, Repr

/-- The text of an error. -/
def ManifestError.message : ManifestError → String
  | .malformed => "TOML parse error"
  | .noObjects => "the [objects] table is empty"
  | .entryPoint text => EntryPoint.parseError text

namespace Manifest

open Toml (Value Table)

/-! ## Values -/

/-- The text of a string. -/
def string? : Value → Option String
  | .string s => some s
  | _ => none

/-- The number of an integer. -/
def integer? : Value → Option Int
  | .integer n => some n
  | _ => none

/-- The truth of a boolean. -/
def boolean? : Value → Option Bool
  | .boolean b => some b
  | _ => none

/-- The key under which a date stands where a table is asked for. -/
def datetimeKey : String := "$__toml_private_datetime"

/-- The entries of a table; a date counts as a table with its text as the one entry. -/
def entries? : Value → Option Table
  | .table _ t => some t
  | .datetime d => some [(datetimeKey, .string d.text)]
  | _ => none

/-- Whether a value is an array or table without elements. -/
def isEmptyGroup : Value → Bool
  | .array vs => vs.isEmpty
  | .table _ t => t.isEmpty
  | .tables ts => ts.isEmpty
  | _ => false

/-- A policy is given by its name, or by a table with the name as its only key and nothing there. -/
def policy? : Value → Option OversizedPolicy
  | .string s => OversizedPolicy.ofText? s
  | .table _ [(key, value)] => if isEmptyGroup value then OversizedPolicy.ofText? key else none
  | _ => none

/-! ## Tables -/

/-- The options with an entry of their table. -/
def addOption (o : ManifestOptions) : String × Value → Option ManifestOptions
  | ("entry_point", v) => do return { o with entryPoint := ← string? v }
  | ("base_address_offset", v) => do return { o with baseOffset := ← integer? v }
  | ("oversized_inline_values", v) => do return { o with oversized := ← policy? v }
  | ("mock_external_addresses", v) => do return { o with mockExternals := ← boolean? v }
  | _ => none

/-- The options of a table, or of an array that gives all of them in order. -/
def settings? : Value → Option ManifestOptions
  | .array (entry :: offset :: policy :: mock :: _) => do
    return ⟨← string? entry, ← integer? offset, ← policy? policy, ← boolean? mock⟩
  | v => do (← entries? v).foldlM addOption {}

/-- The files of a table of objects. -/
def objects? (v : Value) : Option (NameMap String) := do
  let files ← (← entries? v).mapM fun (name, v) => do return (name, ← string? v)
  return .ofList files

/-- The manifest of a document. -/
def ofTable? (t : Table) : Option Manifest := do
  let objects ← objects? (← t.find? "objects")
  let settings ← match t.find? "options" with
    | none => pure {}
    | some v => settings? v
  if t.all fun (key, _) => key = "objects" || key = "options" then some ⟨objects, settings⟩ else none

/-- The manifest of a text. -/
def parse (text : List Char) : Except ManifestError Manifest :=
  match (Toml.parse text).bind ofTable? with
  | none => .error .malformed
  | some m => if m.objects.isEmpty then .error .noObjects else .ok m

/-- The files of the objects, relative paths taken from the directory `dir`. -/
def paths (m : Manifest) (dir : String) : NameMap String := m.objects.map (Path.join dir)

/-- The options of the program. -/
def options (m : Manifest) : Except ManifestError Options := do
  let entryPoint ← match m.settings.entryPoint with
    | none => pure none
    | some text =>
      match EntryPoint.parse? text with
      | some e => pure (some e)
      | none => throw (.entryPoint text)
  let defaults : Options := {}
  return {
    entryPoint
    baseOffset := m.settings.baseOffset.getD defaults.baseOffset
    oversized := m.settings.oversized.getD defaults.oversized
    mockExternals := m.settings.mockExternals.getD defaults.mockExternals }

end Manifest

end LinkAsm
