import LinkAsm.Options

/-!
# Arguments of the command

Options have a long name, some also a letter, and may stand anywhere before an argument `--`.  A value
follows its option in the same argument or is the next one; then it must not look like an option.  All
other arguments are input files.

* `Arguments.parse`: the settings of an argument list.
-/

namespace LinkAsm

/-- What the arguments ask for. -/
structure Arguments where
  inputs : List String := []
  manifest : Option String := none
  output : Option String := none
  entryPoint : Option String := none
  baseOffset : Option Int := none
  oversized : Option OversizedPolicy := none
  mockExternals : Bool := false
deriving DecidableEq, Repr

namespace Arguments

/-- An argument list that asks for no run. -/
inductive Stop where
  | help
  | version
  | usage
deriving DecidableEq, Repr

/-- An option with a value. -/
inductive Setting where
  | manifest
  | output
  | entryPoint
  | baseOffset
  | oversized
deriving DecidableEq, Repr

/-- What a name stands for. -/
inductive Flag where
  | setting (s : Setting)
  | mockExternals
  | help
  | version
deriving DecidableEq, Repr

/-- The option with a long name. -/
def Flag.ofName? : String → Option Flag
  | "manifest" => some (.setting .manifest)
  | "output" => some (.setting .output)
  | "entry" => some (.setting .entryPoint)
  | "base-address-offset" => some (.setting .baseOffset)
  | "oversized-inline-values" => some (.setting .oversized)
  | "mock-external-addresses" => some .mockExternals
  | "help" => some .help
  | "version" => some .version
  | _ => none

/-- The option with a letter. -/
def Flag.ofLetter? : Char → Option Flag
  | 'm' => some (.setting .manifest)
  | 'o' => some (.setting .output)
  | 'h' => some .help
  | 'V' => some .version
  | _ => none

/-! ## Values -/

/-- A whole number of sixty-four bits, one of them for the sign. -/
def integer? (s : String) : Option Int :=
  let (negative, digits) := match s.toList with
    | '-' :: cs => (true, cs)
    | '+' :: cs => (false, cs)
    | cs => (false, cs)
  let n : Int := Nat.ofDigitChars 10 digits 0
  let n := if negative then -n else n
  let fits := -0x8000000000000000 ≤ n && n < 0x8000000000000000
  if !digits.isEmpty && digits.all Char.isDigit && fits then some n else none

/-- The value of an option that has none yet. -/
def once {α : Type} (old : Option α) (value : Option α) : Except Stop (Option α) :=
  match old, value with
  | none, some v => .ok (some v)
  | _, _ => .error .usage

/-- The text of a path, which is not empty. -/
def path? (s : String) : Option String := if s.isEmpty then none else some s

/-- The arguments with the value of an option. -/
def assign (a : Arguments) (value : String) : Setting → Except Stop Arguments
  | .manifest => do return { a with manifest := ← once a.manifest (path? value) }
  | .output => do return { a with output := ← once a.output (path? value) }
  | .entryPoint => do return { a with entryPoint := ← once a.entryPoint (some value) }
  | .baseOffset => do return { a with baseOffset := ← once a.baseOffset (integer? value) }
  | .oversized => do
    return { a with oversized := ← once a.oversized (OversizedPolicy.ofText? value) }

/-- The arguments with one more input. -/
def addInput (a : Arguments) (path : String) : Except Stop Arguments :=
  match path? path with
  | some path => .ok { a with inputs := a.inputs ++ [path] }
  | none => .error .usage

/-! ## Argument lists -/

/-- Whether an argument looks like an option: a hyphen with something behind it. -/
def isOption (arg : String) : Bool :=
  match arg.toList with
  | '-' :: _ :: _ => true
  | _ => false

/-- Whether the next argument may be the value of an option.  Only an address may be negative. -/
def mayFollow (s : Setting) (arg : String) : Bool :=
  !isOption arg || (s = .baseOffset && (integer? arg).isSome)

/-- What an argument is. -/
inductive Shape where
  /-- All arguments behind it are inputs. -/
  | divider
  | input
  | unknown
  /-- An option, perhaps with a value. -/
  | option (flag : Flag) (value : Option String)
deriving DecidableEq, Repr

/-- An option or an unknown argument. -/
def Shape.ofFlag (flag : Option Flag) (value : Option String) : Shape :=
  match flag with
  | some flag => .option flag value
  | none => .unknown

/-- What an argument is: a long name has its value behind `=`, a letter has it right behind itself,
with `=` or without. -/
def Shape.ofArgument (arg : String) : Shape :=
  match arg.toList with
  | ['-', '-'] => .divider
  | '-' :: '-' :: cs =>
    let name := cs.takeWhile (· != '=')
    let value := (cs.dropWhile (· != '=')).tail?
    .ofFlag (Flag.ofName? (String.ofList name)) (value.map String.ofList)
  | '-' :: c :: cs =>
    let value := match cs with
      | [] => none
      | '=' :: cs => some cs
      | cs => some cs
    .ofFlag (Flag.ofLetter? c) (value.map String.ofList)
  | _ => .input

/-- The settings of the arguments behind those of `a`.  Letters for help and version need nothing
behind them, so what stands there does not matter. -/
def parseFrom (a : Arguments) : List String → Except Stop Arguments
  | [] => .ok a
  | arg :: args =>
    match Shape.ofArgument arg with
    | .divider => args.foldlM addInput a
    | .input => do parseFrom (← a.addInput arg) args
    | .unknown => .error .usage
    | .option .help value => .error (if value.isSome && arg.startsWith "--" then .usage else .help)
    | .option .version value =>
      .error (if value.isSome && arg.startsWith "--" then .usage else .version)
    | .option .mockExternals value =>
      if value.isSome || a.mockExternals then .error .usage
      else parseFrom { a with mockExternals := true } args
    | .option (.setting s) (some value) => do parseFrom (← a.assign value s) args
    | .option (.setting s) none =>
      match args with
      | [] => .error .usage
      | value :: args =>
        if mayFollow s value then do parseFrom (← a.assign value s) args else .error .usage

/-- The settings of an argument list. -/
def parse (args : List String) : Except Stop Arguments := parseFrom {} args

end Arguments

end LinkAsm
