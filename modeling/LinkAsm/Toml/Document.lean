import LinkAsm.Toml.Scalar

/-!
# TOML documents

A document is a list of statements: headers, which open a table, and pairs of a key and a value, which
belong to the table opened last.  Keys and values nest less than eighty levels deep.

* `Document.statements`: the statements of a text.
* `Document.tables`: the table they build.
* `Toml.parse`: the table of a text.
-/

namespace LinkAsm.Toml

/-- A part of a document. -/
inductive Statement where
  | pair (path : List String) (key : String) (value : Value)
  | header (path : List String) (key : String)
  | doubleHeader (path : List String) (key : String)

namespace Document

/-- The number of levels of keys and values. -/
def depth : Nat := 79

/-! ## Blanks -/

/-- What follows blanks. -/
def skipBlanks (cs : List Char) : List Char := cs.dropWhile isBlank

/-- What follows blanks, comments and line breaks; a comment must end with its line. -/
def skipSpace (comment : Bool) : List Char → Option (List Char)
  | [] => if comment then none else some []
  | '\n' :: cs => skipSpace false cs
  | '\r' :: '\n' :: cs => skipSpace false cs
  | c :: cs =>
    if comment then (if isPrintable c then skipSpace true cs else none)
    else if isBlank c then skipSpace false cs
    else if c = '#' then skipSpace true cs
    else some (c :: cs)

/-- What follows the rest of a line that holds nothing but a comment. -/
def endLine (cs : List Char) : Option (List Char) :=
  let cs := skipBlanks cs
  let cs := if cs.head? = some '#' then cs.dropWhile isPrintable else cs
  match cs with
  | [] => some []
  | '\n' :: cs => some cs
  | '\r' :: '\n' :: cs => some cs
  | _ => none

/-! ## Keys -/

/-- The characters of a key without quotes. -/
def isKeyChar (c : Char) : Bool := c.isAlphanum || c = '_' || c = '-'

/-- A part of a key. -/
def readKeyPart (cs : List Char) : Option (String × List Char) :=
  match cs with
  | '"' :: _ | '\'' :: _ => readString cs
  | _ =>
    let name := cs.takeWhile isKeyChar
    if name.isEmpty then none else some (String.ofList name, cs.dropWhile isKeyChar)

/-- A key of at most so many parts, divided by dots, as the parts before the last and the last. -/
def readKey : Nat → List Char → Option ((List String × String) × List Char)
  | 0, _ => none
  | parts + 1, cs => do
    let (part, cs) ← readKeyPart (skipBlanks cs)
    match skipBlanks cs with
    | '.' :: cs =>
      let ((path, key), cs) ← readKey parts cs
      return ((part :: path, key), cs)
    | cs => return (([], part), cs)

/-! ## Values -/

/-- A reader of values. -/
abbrev ReadValue := List Char → Option (Value × List Char)

/-- A key and its value. -/
def readPair (value : ReadValue) (cs : List Char) :
    Option ((List String × String × Value) × List Char) := do
  let ((path, key), cs) ← readKey depth cs
  let (v, cs) ← value (skipBlanks (← expect '=' cs))
  return ((path, key, v), cs)

/-- The elements of an array, at most so many, up to the closing bracket. -/
def readElements (value : ReadValue) : Nat → List Char → Option (List Value × List Char)
  | 0, _ => none
  | most + 1, cs => do
    match ← skipSpace false cs with
    | ']' :: cs => return ([], cs)
    | cs =>
      let (v, cs) ← value cs
      match ← skipSpace false cs with
      | ',' :: cs =>
        let (vs, cs) ← readElements value most cs
        return (v :: vs, cs)
      | ']' :: cs => return ([v], cs)
      | _ => none

/-- The entries of a table in braces, at most so many, up to the closing brace, added to a table. -/
def readEntries (value : ReadValue) : Nat → Table → List Char → Option (Table × List Char)
  | 0, _, _ => none
  | most + 1, t, cs => do
    let ((path, key, v), cs) ← readPair value cs
    let t ← t.addDotted path key v
    match skipBlanks cs with
    | ',' :: cs => readEntries value most t cs
    | '\x7d' :: cs => return (t, cs)
    | _ => none

/-- A table behind its opening brace. -/
def readBraces (value : ReadValue) (cs : List Char) : Option (Table × List Char) :=
  match skipBlanks cs with
  | '\x7d' :: cs => some ([], cs)
  | cs => readEntries value cs.length [] cs

/-- A value with at most so many levels of arrays and tables. -/
def readValue : Nat → ReadValue
  | 0, cs => readScalar cs
  | levels + 1, cs =>
    match cs with
    | '[' :: cs => (readElements (readValue levels) (cs.length + 1) cs).map fun (vs, rest) =>
        (.array vs, rest)
    | '\x7b' :: cs => (readBraces (readValue levels) cs).map fun (t, rest) => (.table .braces t, rest)
    | cs => readScalar cs

/-! ## Statements -/

/-- The statements of a text with at most so many lines. -/
def statements : Nat → List Char → Option (List Statement)
  | 0, _ => none
  | most + 1, cs => do
    match skipBlanks cs with
    | [] => return []
    | '#' :: cs => statements most (← endLine ('#' :: cs))
    | '\n' :: cs => statements most cs
    | '\r' :: '\n' :: cs => statements most cs
    | '[' :: '[' :: cs =>
      let ((path, key), cs) ← readKey depth cs
      let cs ← endLine (← expect ']' (← expect ']' cs))
      return .doubleHeader path key :: (← statements most cs)
    | '[' :: cs =>
      let ((path, key), cs) ← readKey depth cs
      let cs ← endLine (← expect ']' cs)
      return .header path key :: (← statements most cs)
    | cs =>
      let ((path, key, value), cs) ← readPair (readValue depth) cs
      let cs ← endLine cs
      return .pair path key value :: (← statements most cs)

/-- The tables of a document as far as it has been read, and the path of the table opened last. -/
structure Progress where
  root : Table
  current : List String

/-- The tables behind one more statement. -/
def Progress.add (p : Progress) : Statement → Option Progress
  | .pair path key value => do
    return { p with root := ← p.root.modify p.current (Table.addDotted path key value) }
  | .header path key => do
    return ⟨← p.root.modify path (Table.openTable key), path ++ [key]⟩
  | .doubleHeader path key => do
    return ⟨← p.root.modify path (Table.openElement key), path ++ [key]⟩

/-- The table that statements build. -/
def tables (statements : List Statement) : Option Table := do
  return (← statements.foldlM Progress.add ⟨[], []⟩).root

end Document

/-- The table of a document; a byte order mark in front does not count. -/
def parse (text : List Char) : Option Table := do
  let text := if text.head? = some '\ufeff' then text.drop 1 else text
  Document.tables (← Document.statements (text.length + 1) text)

end LinkAsm.Toml
