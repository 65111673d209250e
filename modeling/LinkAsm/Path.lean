/-!
# Paths

A path is a text whose parts are divided by slashes.  Empty parts count for nothing, and neither does
a part `.` behind the first.

* `Path.same`: whether two paths have the same components.
* `Path.objectName?`: the object in the file at a path.
* `Path.join`, `Path.parent`: paths relative to the directory of another file.
-/

namespace LinkAsm.Path

/-- The parts of a text between its slashes. -/
def pieces : List Char → List (List Char)
  | [] => [[]]
  | c :: cs =>
    if c = '/' then [] :: pieces cs
    else match pieces cs with
      | [] => [[c]]
      | p :: ps => (c :: p) :: ps

/-- Whether a path starts at the root. -/
def isAbsolute (path : String) : Bool := path.toList.head? == some '/'

/-- A step on a path. -/
inductive Component where
  | root
  | here
  | up
  | name (s : String)
deriving DecidableEq, Repr

/-- Whether a part leads nowhere: it is empty or `.`. -/
def isIdle (piece : List Char) : Bool := piece.isEmpty || piece == ['.']

/-- The step of a part that leads somewhere. -/
def Component.ofPiece (piece : List Char) : Component :=
  if piece = ['.', '.'] then .up else .name (String.ofList piece)

/-- The steps of a path. -/
def components (path : String) : List Component :=
  let following (ps : List (List Char)) := (ps.filter (!isIdle ·)).map Component.ofPiece
  match pieces path.toList with
  | [] => []
  | first :: rest =>
    if first.isEmpty then (if isAbsolute path then [.root] else []) ++ following rest
    else if first = ['.'] then .here :: following rest
    else .ofPiece first :: following rest

/-- Whether two paths have the same components. -/
def same (p q : String) : Bool := components p == components q

/-- A file name without what follows its last dot; a dot in front divides nothing. -/
def stem (name : String) : String :=
  let reversed := name.toList.reverse
  let before := ((reversed.dropWhile (· != '.')).drop 1).reverse
  if before.isEmpty then name else String.ofList before

/-- The object in the file at a path: the stem of the file name, if the path ends in a name. -/
def objectName? (path : String) : Option String :=
  match (components path).getLast? with
  | some (.name s) => some (stem s)
  | _ => none

/-- The path `path` as seen from the directory `dir`. -/
def join (dir path : String) : String :=
  if isAbsolute path then path
  else if dir.isEmpty || dir.toList.getLast? == some '/' then dir ++ path
  else dir ++ "/" ++ path

/-- Parts without the idle ones at their end. -/
def dropIdle (ps : List (List Char)) : List (List Char) := (ps.reverse.dropWhile isIdle).reverse

/-- The directory of a file, as far as the path spells it out. -/
def parent (path : String) : String :=
  match pieces path.toList with
  | [] => ""
  | first :: rest =>
    match dropIdle rest with
    | [] => if first.isEmpty then "." else ""
    | named =>
      let dir := first :: dropIdle named.dropLast
      if dir = [[]] then "/" else "/".intercalate (dir.map String.ofList)

end LinkAsm.Path
