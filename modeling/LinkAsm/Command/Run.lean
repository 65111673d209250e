import LinkAsm.Command.Arguments
import LinkAsm.Files.Basic
import LinkAsm.Manifest
import LinkAsm.Program.LinkMap

/-!
# Runs of the command

A run reads the manifest and the sources, assembles the program, writes its link map if a file for it
is given, and reports messages.  The link map is written also for a program with errors.

* `Command.configure`: the objects and options of a run; arguments win over the manifest.
* `Command.run`: the report of an argument list.
-/

namespace LinkAsm.Command

/-- Why a run fails. -/
inductive Failure where
  | input (path : String) (e : FileError)
  | output (path : String) (e : FileError)
  | unreadableManifest (path : String) (e : FileError)
  | manifest (e : ManifestError)
  /-- No object can have the name of this file. -/
  | objectName (path : String)
  /-- Two files are given for one object. -/
  | conflict (object first second : String)
  | entryPoint (text : String)
  | noInputs
deriving DecidableEq, Repr

/-- The text of a failure. -/
def Failure.message : Failure → String
  | .input path e => "I/O error reading input file " ++ path ++ ": " ++ e.message
  | .output path e => "I/O error writing output file " ++ path ++ ": " ++ e.message
  | .unreadableManifest path e =>
    "bad project manifest: failed to read " ++ path ++ ": " ++ e.message
  | .manifest e => "bad project manifest: " ++ e.message
  | .objectName path => "cannot derive an object name from input file name " ++ path
  | .conflict object first second =>
    "object " ++ object ++ " is given by both " ++ first ++ " and " ++ second
  | .entryPoint text => "--entry: " ++ EntryPoint.parseError text
  | .noInputs => "no input objects were specified"

/-- The files and options of a run. -/
structure Project where
  files : NameMap String
  options : Options
deriving DecidableEq, Repr

/-- The files with one more.  An object may be given twice only if the paths are the same. -/
def addFile (files : NameMap String) (path : String) : Except Failure (NameMap String) :=
  match Path.objectName? path with
  | none => .error (.objectName path)
  | some name =>
    match files.find? name with
    | none => .ok (files.insert name path)
    | some first =>
      if Path.same first path then .ok (files.insert name path)
      else .error (.conflict name first path)

/-- The options with those of the arguments. -/
def override (o : Options) (a : Arguments) : Except Failure Options := do
  let entryPoint ← match a.entryPoint with
    | none => pure o.entryPoint
    | some text =>
      match EntryPoint.parse? text with
      | some e => pure (some e)
      | none => throw (.entryPoint text)
  return {
    entryPoint
    baseOffset := a.baseOffset.getD o.baseOffset
    oversized := a.oversized.getD o.oversized
    mockExternals := a.mockExternals || o.mockExternals }

/-- The project of a manifest at a path. -/
def Project.ofManifest (path : String) (text : List Char) : Except Failure Project :=
  let read : Except ManifestError Project := do
    let manifest ← Manifest.parse text
    return ⟨manifest.paths (Path.parent path), ← manifest.options⟩
  read.mapError .manifest

/-- The project with the files and options of the arguments. -/
def configure (base : Project) (a : Arguments) : Except Failure Project := do
  let files ← a.inputs.foldlM addFile base.files
  return ⟨files, ← override base.options a⟩

/-- The report of a run. -/
structure Report where
  exitCode : Nat
  output : String
  errors : String
deriving DecidableEq, Repr

/-- The messages of a program, those of objects with their names. -/
def messages (p : Program) : List String :=
  p.log.messages.map Message.render ++
    p.objects.flatMap fun o => o.log.messages.map fun m => o.name ++ ": " ++ m.render

/-- The report of an assembled program. -/
def Report.ofProgram (p : Program) : Report :=
  let lines := messages p ++ p.failureText?.toList
  ⟨if p.succeeded then 0 else 1, "", Text.unlines lines⟩

/-- The report of a run that fails. -/
def Report.ofFailure (f : Failure) : Report := ⟨1, "", f.message ++ "\n"⟩

/-- How the command is used. -/
def usage : String :=
  Text.unlines
    ["Usage: [OPTIONS] [INPUTS]...",
      "",
      "  -m, --manifest <PATH>",
      "  -o, --output <PATH>",
      "      --entry <OBJECT:LABEL>",
      "      --base-address-offset <N>",
      "      --mock-external-addresses",
      "      --oversized-inline-values <reject|warn>",
      "  -h, --help",
      "  -V, --version"]

/-- The report of arguments that ask for no run. -/
def Report.ofStop : Arguments.Stop → Report
  | .help => ⟨0, usage, ""⟩
  | .version => ⟨0, "0.1.0\n", ""⟩
  | .usage => ⟨2, "", usage⟩

section

variable {m : Type → Type} [Monad m]

/-- The project that the arguments start from: that of the manifest, if there is one. -/
def baseProject (fs : FileSystem m) (a : Arguments) : ExceptT Failure m Project := do
  match a.manifest with
  | none => return ⟨.empty, {}⟩
  | some path =>
    match ← fs.readText path with
    | .error e => throw (.unreadableManifest path e)
    | .ok text => ExceptT.mk (pure (Project.ofManifest path text))

/-- The texts of the files, read in the order of the objects. -/
def readSources (fs : FileSystem m) (files : NameMap String) :
    ExceptT Failure m (NameMap (List Char)) := do
  if files.isEmpty then throw .noInputs
  let sources ← files.entries.mapM fun (name, path) => do
    match ← fs.readText path with
    | .ok text => return (name, text)
    | .error e => throw (.input path e)
  return .ofList sources

/-- The program of the arguments, with its link map written. -/
def assemble (fs : FileSystem m) (a : Arguments) : ExceptT Failure m Program := do
  let base ← baseProject fs a
  let project ← ExceptT.mk (pure (configure base a))
  let program := Program.assemble (← readSources fs project.files) project.options
  match a.output with
  | none => return program
  | some path =>
    match ← fs.write path program.linkMap with
    | .ok () => return program
    | .error e => throw (.output path e)

/-- The report of an argument list. -/
def run (fs : FileSystem m) (args : List String) : m Report := do
  match Arguments.parse args with
  | .error stop => return .ofStop stop
  | .ok a =>
    match ← (assemble fs a).run with
    | .ok program => return .ofProgram program
    | .error f => return .ofFailure f

end

end LinkAsm.Command
