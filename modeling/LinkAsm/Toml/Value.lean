/-!
# Values of a TOML document

A document is a table of values.  Tables remember how they were written, because that decides who may
add to them: a table in braces is finished, a table with a header of its own may be opened only once,
and tables that only arise from dotted keys or from the headers of other tables may grow.
-/

namespace LinkAsm.Toml

/-! ## Dates and times -/

/-- A day. -/
structure Date where
  year : Nat
  month : Nat
  day : Nat
deriving DecidableEq, Repr

/-- A time of day. -/
structure Time where
  hour : Nat
  minute : Nat
  second : Nat
  nanosecond : Nat
deriving DecidableEq, Repr

/-- The distance of a time from universal time. -/
inductive ZoneOffset where
  | utc
  | minutes (n : Int)
deriving DecidableEq, Repr

/-- A date, a time, or both, the last with or without a zone. -/
structure Datetime where
  date : Option Date
  time : Option Time
  zone : Option ZoneOffset
deriving DecidableEq, Repr

/-- `n` with at least `width` decimal digits. -/
def zeroPadded (width n : Nat) : String :=
  let digits := Nat.toDigits 10 n
  String.ofList (List.replicate (width - digits.length) '0' ++ digits)

/-- The date as it is written. -/
def Date.text (d : Date) : String :=
  zeroPadded 4 d.year ++ "-" ++ zeroPadded 2 d.month ++ "-" ++ zeroPadded 2 d.day

/-- The time as it is written, without needless digits of the second. -/
def Time.text (t : Time) : String :=
  let part := ((zeroPadded 9 t.nanosecond).toList.reverse.dropWhile (· == '0')).reverse
  zeroPadded 2 t.hour ++ ":" ++ zeroPadded 2 t.minute ++ ":" ++ zeroPadded 2 t.second ++
    (if part.isEmpty then "" else "." ++ String.ofList part)

/-- The zone as it is written. -/
def ZoneOffset.text : ZoneOffset → String
  | .utc => "Z"
  | .minutes n =>
    (if n < 0 then "-" else "+") ++ zeroPadded 2 (n.natAbs / 60) ++ ":" ++
      zeroPadded 2 (n.natAbs % 60)

/-- The date and time as they are written. -/
def Datetime.text (d : Datetime) : String :=
  let date := (d.date.map Date.text).getD ""
  let time := (d.time.map Time.text).getD ""
  let zone := (d.zone.map ZoneOffset.text).getD ""
  date ++ (if d.date.isSome && d.time.isSome then "T" else "") ++ time ++ zone

/-! ## Values and tables -/

/-- How a table came to be. -/
inductive Origin where
  /-- It is written in braces. -/
  | braces
  /-- It has a header. -/
  | header
  /-- It is named in the header of another table. -/
  | implied
  /-- It is named in a dotted key. -/
  | dotted
deriving DecidableEq, Repr

/-- A value; floats keep the text they were written with. -/
inductive Value where
  | string (s : String)
  | integer (n : Int)
  | float (literal : String)
  | boolean (b : Bool)
  | datetime (d : Datetime)
  | array (elements : List Value)
  | table (origin : Origin) (entries : List (String × Value))
  /-- Tables with a double header each. -/
  | tables (elements : List (List (String × Value)))

/-- The entries of a table. -/
abbrev Table := List (String × Value)

namespace Table

/-- The value of a key. -/
def find? (t : Table) (key : String) : Option Value := List.lookup key t

/-- The table with a value at a key. -/
def set (t : Table) (key : String) (value : Value) : Table :=
  match find? t key with
  | none => t ++ [(key, value)]
  | some _ => t.map fun (k, v) => if k = key then (k, value) else (k, v)

/-- The table with a new entry; the key must not be there yet. -/
def add (key : String) (value : Value) (t : Table) : Option Table :=
  match find? t key with
  | none => some (t ++ [(key, value)])
  | some _ => none

/-- The table with a new value at a dotted key.  The tables on the way must come from dotted keys
too, though all but the last may also be implied by a header. -/
def addDotted (path : List String) (key : String) (value : Value) (t : Table) : Option Table :=
  match path with
  | [] => add key value t
  | step :: path =>
    match find? t step with
    | none => do return set t step (.table .dotted (← addDotted path key value []))
    | some (.table .dotted sub) => do
      return set t step (.table .dotted (← addDotted path key value sub))
    | some (.table .implied sub) =>
      if path.isEmpty then none
      else do return set t step (.table .implied (← addDotted path key value sub))
    | some (.tables elements) =>
      if path.isEmpty then none
      else do
        let last ← elements.getLast?
        return set t step (.tables (elements.dropLast ++ [← addDotted path key value last]))
    | some _ => none

/-- The table with the table at a path changed.  Of several tables with double headers the last is
meant; missing tables are implied. -/
def modify (path : List String) (f : Table → Option Table) (t : Table) : Option Table :=
  match path with
  | [] => f t
  | step :: path =>
    match find? t step with
    | none => do return set t step (.table .implied (← modify path f []))
    | some (.table .braces _) => none
    | some (.table origin sub) => do return set t step (.table origin (← modify path f sub))
    | some (.tables elements) => do
      let last ← elements.getLast?
      return set t step (.tables (elements.dropLast ++ [← modify path f last]))
    | some _ => none

/-- The table with a table under a header; it must not have been written before. -/
def openTable (key : String) (t : Table) : Option Table :=
  match find? t key with
  | none => some (set t key (.table .header []))
  | some (.table .implied sub) => some (set t key (.table .header sub))
  | some _ => none

/-- The table with one more table under a double header. -/
def openElement (key : String) (t : Table) : Option Table :=
  match find? t key with
  | none => some (set t key (.tables [[]]))
  | some (.tables elements) => some (set t key (.tables (elements ++ [[]])))
  | some _ => none

end Table

end LinkAsm.Toml
