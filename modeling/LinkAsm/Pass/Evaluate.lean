import LinkAsm.Pass.Arithmetic

/-!
# Evaluating expressions

The value of an expression in a pass, given the values that aliases have so far.  What the pass
cannot know wins over what has to be waited for, and that over an error, wherever they stand in the
tree; of two of a kind the left one wins.

* `Site.evaluateTree`, `Site.evaluate`: the outcome, and notes about addresses.
-/

namespace LinkAsm

/-- What the aliases of an object are known to be. -/
structure AliasScope where
  /-- The aliases that have a value. -/
  values : NameMap AliasValue
  /-- All aliases of the object. -/
  declared : List String

namespace AliasScope

/-- The outcome of an alias at a place. -/
def lookup (a : AliasScope) (span : Span) (name : String) : AliasValue :=
  match a.values.find? name with
  | some (.word w) => .word w
  | some .deferred => .deferred
  | some (.error _) => .fail span (.erroneousDependency name)
  | some (.dependsOn _) => .dependsOn name
  | none => if name ∈ a.declared then .dependsOn name else .fail span (.undefinedAlias name)

end AliasScope

/-- The outcome of an operator from those of its sides. -/
def AliasValue.combine (op : Operator) (span : Span) : AliasValue → AliasValue → AliasValue
  | .deferred, _ | _, .deferred => .deferred
  | .dependsOn name, _ => .dependsOn name
  | _, .dependsOn name => .dependsOn name
  | .error e, _ => .error e
  | _, .error e => .error e
  | .word v, .word w => op.apply span v w

namespace Site

/-- The outcome of a symbol of an imported object. -/
def importedValue (s : Site) (span : Span) (qualifier symbol : String) : AliasValue :=
  if s.context.isLocal then .deferred
  else
    match s.source.importFor? qualifier with
    | none => .fail span (.undeclaredImport qualifier)
    | some directive =>
      match (s.context.exportOf? directive.object symbol).map Symbol.value with
      | some (.word w) => .word w
      | some .deferred => .deferred
      | some .error => .fail span (.erroneousDependency symbol)
      | none => .fail span (.unresolvedExternal directive.object symbol)

/-- The outcome of a leaf at a position of the object. -/
def evaluateOperand (s : Site) (aliases : AliasScope) (position : Nat) (span : Span) :
    Operand → AliasValue × List Message
  | .aliasRef name => (aliases.lookup span name, [])
  | .address ref =>
    match s.resolve ref position false span with
    | (.resolved address, notes) => (.word address.toWord, notes)
    | (.deferred, notes) => (.deferred, notes)
    | (.failed failure, notes) => (.fail span (.address failure), notes)
  | .injector kind value => (injected span kind value, [])
  | .quotedInjector kind _ => (.fail span (.unimplementedInjector kind), [])
  | .imported qualifier symbol => (s.importedValue span qualifier symbol, [])
  | .integer n => (.ofResult span (Word.ofNat .quadByte n), [])
  | .float x => (.ofFloat span x, [])

/-- The outcome of a tree at a position of the object. -/
def evaluateTree (s : Site) (aliases : AliasScope) (position : Nat) :
    Tree → AliasValue × List Message
  | .leaf span operand => s.evaluateOperand aliases position span operand
  | .binary span op left right =>
    let (l, notes) := s.evaluateTree aliases position left
    let (r, notes') := s.evaluateTree aliases position right
    (AliasValue.combine op span l r, notes ++ notes')

/-- The outcome of an expression at a position of the object.  A name that is no cast is an error
whatever stands before it. -/
def evaluate (s : Site) (aliases : AliasScope) (position : Nat) (e : Expr) :
    AliasValue × List Message :=
  match e.cast with
  | none => s.evaluateTree aliases position e.tree
  | some (span, .unknown name) => (.fail span (.invalidCast name), [])
  | some (span, cast) =>
    match s.evaluateTree aliases position e.tree with
    | (.word w, notes) => (cast.apply span w, notes)
    | other => other

end Site

end LinkAsm
