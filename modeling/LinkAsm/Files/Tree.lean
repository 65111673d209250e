import LinkAsm.Files.Basic
import LinkAsm.Path
import LinkAsm.Text.Basic

/-!
# Files in memory

A tree of files is a list of locations with contents; directories are there if a file is below them.
Paths start at the working directory or at the root, and are followed part by part, so that each part
but the last must be a directory.  Names and paths have a greatest length, counted in bytes.

* `FileTree.read`, `FileTree.write`: the file at a path.
* `FileTree.system`: the tree as the place with the files of the command.
-/

namespace LinkAsm

/-- Where the names of a location start. -/
inductive Location.Anchor where
  | root
  /-- So many levels above the working directory. -/
  | above (levels : Nat)
deriving DecidableEq, Repr

/-- A place in a tree: the names on the way to it. -/
structure Location where
  anchor : Location.Anchor
  names : List String
deriving DecidableEq, Repr

namespace Location

/-- The working directory. -/
def working : Location := ⟨.above 0, []⟩

/-- The location of a name in a directory. -/
def child (l : Location) (name : String) : Location := { l with names := l.names ++ [name] }

/-- The directory above; the root is its own. -/
def parent : Location → Location
  | ⟨.root, []⟩ => ⟨.root, []⟩
  | ⟨.above levels, []⟩ => ⟨.above (levels + 1), []⟩
  | ⟨anchor, names⟩ => ⟨anchor, names.dropLast⟩

/-- Whether a location lies below another. -/
def isBelow (l d : Location) : Bool :=
  l.anchor == d.anchor && d.names.isPrefixOf l.names && d.names.length < l.names.length

/-- The directory at which a path starts. -/
def start (path : String) : Location := if Path.isAbsolute path then ⟨.root, []⟩ else working

/-- The location to which a part of a path leads. -/
def enter (l : Location) (piece : List Char) : Location :=
  if Path.isIdle piece then l
  else if piece = ['.', '.'] then l.parent
  else l.child (String.ofList piece)

/-- The location of a path whose directories need not be there. -/
def ofPath (path : String) : Location := (Path.pieces path.toList).foldl enter (start path)

end Location

/-- Files and their contents. -/
structure FileTree where
  files : List (Location × ByteArray)

namespace FileTree

/-- The greatest number of bytes of a name. -/
def nameLimit : Nat := 255

/-- The greatest number of bytes of a path. -/
def pathLimit : Nat := 4095

/-- What stands at a location. -/
inductive Node where
  | file (l : Location)
  | directory (l : Location)

/-- The tree of files at paths. -/
def ofList (files : List (String × ByteArray)) : FileTree :=
  ⟨files.map fun (path, bytes) => (Location.ofPath path, bytes)⟩

/-- What stands at a location, if anything does. -/
def node? (t : FileTree) (l : Location) : Option Node :=
  if (t.files.lookup l).isSome then some (.file l)
  else if l.names.isEmpty || t.files.any (·.1.isBelow l) then some (.directory l)
  else none

/-- The location to which a part of a path leads from a directory, unless its name is too long. -/
def place (d : Location) (piece : List Char) : Except FileError Location :=
  if nameLimit < Text.byteLength piece then .error .nameTooLong else .ok (d.enter piece)

/-- Follows a part of a path. -/
def follow (t : FileTree) (node : Node) (piece : List Char) : Except FileError Node :=
  match node with
  | .file _ => .error .notADirectory
  | .directory d => do
    match t.node? (← place d piece) with
    | some node => .ok node
    | none => .error .notFound

/-- Follows the parts of a path. -/
def followAll (t : FileTree) (path : String) (pieces : List (List Char)) : Except FileError Node :=
  if path.isEmpty then .error .notFound
  else if path.toList.contains '\x00' then .error .badPath
  else if pathLimit < Text.byteLength path.toList then .error .nameTooLong
  else pieces.foldlM t.follow (.directory (Location.start path))

/-- The bytes of the file at a path. -/
def read (t : FileTree) (path : String) : Except FileError ByteArray := do
  match ← t.followAll path (Path.pieces path.toList) with
  | .directory _ => .error .isADirectory
  | .file l =>
    match t.files.lookup l with
    | some bytes => .ok bytes
    | none => .error .notFound

/-- The tree with a text as the contents of the file at a path.  The directory of the file must be
there; a slash at the end asks for a directory. -/
def write (t : FileTree) (path text : String) : Except FileError FileTree := do
  let pieces := Path.pieces path.toList
  let named := (pieces.reverse.dropWhile List.isEmpty).reverse
  match ← t.followAll path named.dropLast with
  | .file _ => .error .notADirectory
  | .directory d =>
    if named.length < pieces.length then .error .isADirectory
    else
      let target ← place d (named.getLastD [])
      match t.node? target with
      | some (.directory _) => .error .isADirectory
      | _ => .ok ⟨(target, text.toUTF8) :: t.files.filter (·.1 != target)⟩

/-- The tree as a place with files. -/
def system : FileSystem (StateM FileTree) where
  read path := do return (← get).read path
  write path text := do
    match (← get).write path text with
    | .ok t => set t; return .ok ()
    | .error e => return .error e

end FileTree

end LinkAsm
