import LinkAsm.Program.Object

/-!
# Programs

A program is assembled from the texts of its objects.  Every object goes through the local pass, the
objects are brought into build order and placed, and go through the global pass.  If an entry point
is given, the instructions are reordered and a last pass computes all addresses anew.  Objects that
cannot be ordered stop the assembly after the local pass.

* `Program.assemble`: the program of some texts.
* `Program.succeeded`: whether no message anywhere is a failure.
-/

namespace LinkAsm

/-- An assembled program. -/
structure Program where
  options : Options
  buildOrder : List String
  unresolved : List Unresolved
  /-- The objects in build order, then those that have no place in it by name. -/
  objects : List AssembledObject
  /-- The messages that belong to no object. -/
  log : Log
  /-- The entry point at which the program starts. -/
  entryPoint : Option EntryPoint
  /-- The order of the instructions. -/
  order : InstructionOrder

namespace Program

/-- Whether no message is a failure. -/
def succeeded (p : Program) : Bool := !p.log.failed && p.objects.all fun o => !o.log.failed

/-- The number of failures. -/
def failureCount (p : Program) : Nat :=
  let failures (log : Log) := log.messages.countP Message.isFailure
  p.objects.foldr (fun o n => failures o.log + n) (failures p.log)

/-- The text about the failures of a program, if there are any. -/
def failureText? (p : Program) : Option String :=
  if p.succeeded then none
  else some ("assembly failed with " ++ toString p.failureCount ++ " error(s)")

/-- The program of options that make no sense. -/
def rejected (options : Options) (message : Message) : Program where
  options := options
  buildOrder := []
  unresolved := []
  objects := []
  log := Log.empty.push message
  entryPoint := none
  order := .natural []

/-- The objects with these names, in the order of the names. -/
def select (names : List String) (objects : List AssembledObject) : List AssembledObject :=
  names.filterMap fun name => objects.find? (·.name == name)

/-- The program of objects that cannot be ordered. -/
def stopped (options : Options) (build : BuildOrder) (objects : List AssembledObject) : Program :=
  let objects := objects.map (AssembledObject.reportUnresolved build.unresolved)
  { options
    buildOrder := build.order
    unresolved := build.unresolved
    objects := select build.order objects ++ objects.filter (·.name ∉ build.order)
    log := .empty
    entryPoint := none
    order := .natural [] }

/-- The message about an entry point that the program does not have. -/
def entryMessage (entry : EntryPoint) (e : EntryError) : Message :=
  ⟨.invalidEntryPoint, .critical, none,
    "cannot start the program at " ++ entry.text ++ ": " ++ e.message⟩

/-- The program of objects in build order that are still to be placed. -/
def link (options : Options) (origin : Address) (known : List String)
    (objects : List AssembledObject) : Program :=
  let settings : AssembledObject.PassSettings :=
    { scope := .globalPass, options, origin, known, order := none }
  let linked := AssembledObject.runPass settings (AssembledObject.place origin.value objects)
  let layout := linked.map AssembledObject.layout
  let program : Program :=
    { options
      buildOrder := objects.map (·.name)
      unresolved := []
      objects := linked
      log := .empty
      entryPoint := none
      order := .natural layout }
  match options.entryPoint with
  | none => program
  | some entry =>
    match InstructionOrder.startingAt layout entry with
    | .error e => { program with log := program.log.add (entryMessage entry e) }
    | .ok order =>
      let settings := { settings with scope := .postGlobalPass, order := some order }
      { program with
        objects := AssembledObject.runPass settings linked
        entryPoint := some entry
        order }

/-- The program of the texts of its objects. -/
def assemble (sources : NameMap (List Char)) (options : Options) : Program :=
  let known := sources.keys
  match options.validate known with
  | .error message => rejected options message
  | .ok origin =>
    let objects := sources.entries.map fun (name, text) =>
      AssembledObject.ofText known options name text
    let build := BuildOrder.resolve (objects.map AssembledObject.demand) options.mockExternals
    if build.isComplete then link options origin known (select build.order objects)
    else stopped options build objects

end Program

end LinkAsm
