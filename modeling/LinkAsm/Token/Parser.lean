import LinkAsm.Token.Basic

/-!
# Parsers of token lists

A parser is a pair of functions on the tokens that are left to read.  `run` tells what the parser
accepts: a value and the tokens behind it.  `obstacle` tells what stood in the way: it updates the
obstacle met furthest to the right so far, with what would have let the parse go on there.  The two
are kept apart so that what is accepted never depends on what is reported.

An obstacle is placed by the token that could not be read, or by the end of the tokens.  Places are
compared by where their tokens start.

* `Obstacle.expect`: an item that a single token failed to be.
* `Parser.labelled`: a parser that is reported under a name where it fails at its first token.
* `Parser.parseAll`: the value of a whole token list, or the furthest obstacle as a failure.
-/

namespace LinkAsm

/-! ## Obstacles -/

/-- What stood in the way of a parse. -/
inductive Reason where
  /-- One of these items would have let it go on. -/
  | expected (items : List String)
  /-- What was read is wrong for a reason of its own. -/
  | rejected (text : String) (span : Span)
deriving DecidableEq, Repr

/-- What stood in the way of a parse. -/
structure Obstacle where
  /-- The token that could not be read; `none` is the end of the tokens. -/
  place : Option Lexeme
  reason : Reason
deriving DecidableEq, Repr

namespace Obstacle

/-- Whether a place lies to the left of another. -/
def isLeftOf : Option Lexeme → Option Lexeme → Bool
  | some l, some m => l.span.start < m.span.start
  | some _, none => true
  | none, _ => false

/-- The furthest obstacle after an item is found missing at a place. -/
def expect (item : String) (place : Option Lexeme) : Option Obstacle → Obstacle
  | none => ⟨place, .expected [item]⟩
  | some o =>
    if isLeftOf o.place place then ⟨place, .expected [item]⟩
    else if isLeftOf place o.place then o
    else match o.reason with
      | .rejected _ _ => o
      | .expected items => if item ∈ items then o else ⟨place, .expected (items ++ [item])⟩

/-- Both lists of items without repetition, the longer one first. -/
def mergeItems (old new : List String) : List String :=
  if new.length ≤ old.length then old ++ new.filter (· ∉ old) else new ++ old.filter (· ∉ new)

/-- The further of two obstacles; at one place, both. -/
def merge (old new : Obstacle) : Obstacle :=
  if isLeftOf old.place new.place then new
  else if isLeftOf new.place old.place then old
  else match old.reason, new.reason with
    | .rejected _ _, _ => old
    | _, .rejected _ _ => new
    | .expected items, .expected items' => ⟨old.place, .expected (mergeItems items items')⟩

/-- The further of two obstacles, if there are any. -/
def merge? : Option Obstacle → Option Obstacle → Option Obstacle
  | old, none => old
  | none, new => new
  | some old, some new => some (old.merge new)

/-- The obstacle under one name, unless it stands behind the place where that name begins. -/
def label (name : String) (start : Option Lexeme) (o : Obstacle) : Obstacle :=
  if isLeftOf start o.place then o else ⟨start, .expected [name]⟩

end Obstacle

/-! ## Parsers -/

/-- A parser of values in `α`. -/
structure Parser (α : Type) where
  /-- The value at the front of a token list and the tokens behind it. -/
  run : List Lexeme → Option (α × List Lexeme)
  /-- The furthest obstacle after the parser has run. -/
  obstacle : List Lexeme → Option Obstacle → Option Obstacle

namespace Parser

/-- The value that `pick` takes from one token; `item` is what is missing where it takes none. -/
def token {α : Type} (item : String) (pick : Token → Option α) : Parser α where
  run
    | [] => none
    | l :: ls => (pick l.token).map (·, ls)
  obstacle ls o :=
    if ((ls.head?.bind (pick ·.token)).isSome) then o else some (Obstacle.expect item ls.head? o)

/-- One given token. -/
def exactly (t : Token) : Parser Unit :=
  token ("'" ++ t.text ++ "'") fun u => if u = t then some () else none

/-- A value taken from one token of several kinds. -/
def oneOf {α : Type} (pick : Token → Option α) : Parser α := token "something else" pick

/-- The end of the token list. -/
def finish : Parser Unit where
  run
    | [] => some ((), [])
    | _ :: _ => none
  obstacle ls o := if ls.isEmpty then o else some (Obstacle.expect "end of input" ls.head? o)

/-- The values of a parser under a function. -/
def map {α β : Type} (f : α → β) (p : Parser α) : Parser β where
  run ls := (p.run ls).map fun (x, rest) => (f x, rest)
  obstacle := p.obstacle

/-- One parser after another. -/
def both {α β : Type} (p : Parser α) (q : Parser β) : Parser (α × β) where
  run ls := (p.run ls).bind fun (x, rest) => (q.run rest).map fun (y, rest) => ((x, y), rest)
  obstacle ls o :=
    let o := p.obstacle ls o
    match p.run ls with
    | none => o
    | some (_, rest) => q.obstacle rest o

/-- One parser after another, with the value of the first. -/
def before {α β : Type} (p : Parser α) (q : Parser β) : Parser α := (p.both q).map (·.1)

/-- One parser after another, with the value of the second. -/
def after {α β : Type} (p : Parser α) (q : Parser β) : Parser β := (p.both q).map (·.2)

/-- The first parser of a list that accepts. -/
def choice {α : Type} : List (Parser α) → Parser α
  | [] => ⟨fun _ => none, fun _ o => o⟩
  | p :: ps =>
    { run := fun ls => (p.run ls).or ((choice ps).run ls)
      obstacle := fun ls o =>
        let o := p.obstacle ls o
        if (p.run ls).isSome then o else (choice ps).obstacle ls o }

/-- A parser that may be left out. -/
def optional {α : Type} (p : Parser α) : Parser (Option α) where
  run ls := match p.run ls with
    | none => some (none, ls)
    | some (x, rest) => some (some x, rest)
  obstacle := p.obstacle

/-- A parser reported under one name where it fails at its first token. -/
def labelled {α : Type} (name : String) (p : Parser α) : Parser α where
  run := p.run
  obstacle ls o := Obstacle.merge? o ((p.obstacle ls none).map (·.label name ls.head?))

/-- The span of the tokens of `ls` that stand before its tail `rest`. -/
def spanOf (ls rest : List Lexeme) : Span :=
  let taken := ls.takeWhile fun l => Obstacle.isLeftOf (some l) rest.head?
  match taken.head?, taken.getLast? with
  | some first, some last => first.span.through last.span
  | _, _ => ⟨0, 0⟩

/-- The value of a parser with the span of its tokens. -/
def spanned {α : Type} (p : Parser α) : Parser (Span × α) where
  run ls := (p.run ls).map fun (x, rest) => ((spanOf ls rest, x), rest)
  obstacle := p.obstacle

/-- The value of a parser after a check, whose failure rejects all that was read. -/
def checked {α β : Type} (p : Parser α) (check : α → Except String β) : Parser β where
  run ls := (p.run ls).bind fun (x, rest) =>
    match check x with
    | .ok y => some (y, rest)
    | .error _ => none
  obstacle ls o :=
    match p.run ls with
    | none => p.obstacle ls o
    | some (x, rest) =>
      match check x with
      | .ok _ => p.obstacle ls o
      | .error text => some ⟨ls.head?, .rejected text (spanOf ls rest)⟩

end Parser

/-! ## Failures -/

/-- A failed parse. -/
structure ParseFailure where
  span : Span
  message : String
deriving DecidableEq, Repr

namespace ParseFailure

/-- A list of items in words: `a`, `a, or b`, `a, b, or c`. -/
def listItems : List String → String
  | [] => ""
  | [a] => a
  | items => ", ".intercalate items.dropLast ++ ", or " ++ items.getLastD ""

/-- The span of all of a text that ends with these tokens. -/
def wholeSpan (ls : List Lexeme) : Span := ⟨0, ls.foldl (fun n l => max n l.span.stop) 0⟩

/-- The failure that an obstacle amounts to in a token list. -/
def ofObstacle (ls : List Lexeme) (o : Obstacle) : ParseFailure :=
  match o.reason with
  | .rejected text span => ⟨span, text⟩
  | .expected items =>
    match o.place with
    | none => ⟨wholeSpan ls, "found end of input expected " ++ listItems items⟩
    | some l => ⟨l.span, "found '" ++ l.token.text ++ "' expected " ++ listItems items⟩

end ParseFailure

/-- The value of a whole token list. -/
def Parser.parseAll {α : Type} (p : Parser α) (ls : List Lexeme) : Except ParseFailure α :=
  let whole := p.before finish
  match whole.run ls with
  | some (x, _) => .ok x
  | none =>
    .error (match whole.obstacle ls none with
      | some o => .ofObstacle ls o
      | none => ⟨ParseFailure.wholeSpan ls, ""⟩)

end LinkAsm
