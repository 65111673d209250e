/-!
# Files

What the command asks of the place where its files are: to read one and to write one.

* `FileSystem`: the two operations, in any monad.
* `FileSystem.readText`: the characters of a file.
-/

namespace LinkAsm

/-- Why a file cannot be read or written. -/
inductive FileError where
  | notFound
  | notADirectory
  | isADirectory
  | accessDenied
  /-- The path or a name in it is too long. -/
  | nameTooLong
  /-- The path holds a character that no path may hold. -/
  | badPath
  /-- The bytes are not the UTF-8 form of a text. -/
  | notText
  | other (text : String)
deriving DecidableEq, Repr

/-- The text of an error. -/
def FileError.message : FileError → String
  | .notFound => "No such file or directory (os error 2)"
  | .notADirectory => "Not a directory (os error 20)"
  | .isADirectory => "Is a directory (os error 21)"
  | .accessDenied => "Permission denied (os error 13)"
  | .nameTooLong => "File name too long (os error 36)"
  | .badPath => "file name contained an unexpected NUL byte"
  | .notText => "stream did not contain valid UTF-8"
  | .other text => text

/-- A place with files. -/
structure FileSystem (m : Type → Type) where
  /-- The bytes of the file at a path. -/
  read : String → m (Except FileError ByteArray)
  /-- Makes a text the contents of the file at a path. -/
  write : String → String → m (Except FileError Unit)

/-- The characters of the bytes of a file. -/
def decodeText (bytes : ByteArray) : Except FileError (List Char) :=
  match String.fromUTF8? bytes with
  | some s => .ok s.toList
  | none => .error .notText

/-- The characters of the file at a path. -/
def FileSystem.readText {m : Type → Type} [Monad m] (fs : FileSystem m) (path : String) :
    m (Except FileError (List Char)) := do
  return (← fs.read path).bind decodeText

end LinkAsm
