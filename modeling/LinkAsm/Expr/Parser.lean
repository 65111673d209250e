import LinkAsm.Expr.Operand
import LinkAsm.Token.Lexer

/-!
# Reading expressions and operands

An expression is a chain of terms with operators between them, combined from left to right.  A term
is an operand or another chain in braces.  Braces may be nested to any depth, so a chain is read
step by step with a list of the braces that are open.

* `Reading.step`: reads a brace, an operand or an operator.
* `Reading.run`, `Reading.report`: what all steps read, and the furthest obstacle they met.
* `Grammar.expression`: the parser made of the two.
* `Expr.parse`: an expression with its cast.
* `InstructionOperand.parse`: an operand that is an address, an alias or a number.
-/

namespace LinkAsm

/-! ## Steps -/

/-- The part of a chain that waits for its next term. -/
structure Pending where
  left : Tree
  operator : Operator
  /-- The tokens from the operator on. -/
  tokens : List Lexeme

/-- The chain with its next term. -/
def Pending.complete : Option Pending → Tree → Tree
  | none, term => term
  | some p, term => p.left.join p.operator term

/-- Where the reader stands in the innermost chain. -/
inductive Reading.Place where
  /-- A term must come. -/
  | term (before : Option Pending)
  /-- The chain may go on or end. -/
  | behind (chain : Tree)

/-- A chain that is being read. -/
structure Reading where
  /-- What waits for the braces that are open, the innermost first. -/
  braces : List (Option Pending)
  place : Reading.Place
  tokens : List Lexeme

namespace Reading

open LinkAsm.Parser

/-- The reading of a token list from its start. -/
def start (ls : List Lexeme) : Reading := ⟨[], .term none, ls⟩

/-- What has been read where a term is missing: the outermost chain without its last operator. -/
def abandon : List (Option Pending) → Option Pending → Option (Tree × List Lexeme)
  | [], before => before.map fun p => (p.left, p.tokens)
  | outer :: braces, _ => abandon braces outer

/-- The next step, or what has been read if there is none. -/
def step (r : Reading) : Reading ⊕ Option (Tree × List Lexeme) :=
  match r.place with
  | .term before =>
    match Grammar.opening.run r.tokens with
    | some (_, rest) => .inl ⟨before :: r.braces, .term none, rest⟩
    | none =>
      match Grammar.operand.run r.tokens with
      | some (term, rest) => .inl ⟨r.braces, .behind (Pending.complete before term), rest⟩
      | none => .inr (abandon r.braces before)
  | .behind chain =>
    match Grammar.operator.run r.tokens with
    | some (op, rest) => .inl ⟨r.braces, .term (some ⟨chain, op, r.tokens⟩), rest⟩
    | none =>
      match r.braces with
      | [] => .inr (some (chain, r.tokens))
      | before :: braces =>
        match Grammar.closing.run r.tokens with
        | some (_, rest) => .inl ⟨braces, .behind (Pending.complete before chain), rest⟩
        | none => .inr (abandon braces before)

/-- What at most `n` steps read. -/
def run : Nat → Reading → Option (Tree × List Lexeme)
  | 0, _ => none
  | n + 1, r =>
    match r.step with
    | .inl next => run n next
    | .inr result => result

/-! ## Obstacles -/

/-- The furthest obstacles so far. -/
structure Obstacles where
  /-- The furthest one in the innermost braces. -/
  inside : Option Obstacle
  /-- Those met before each brace that is open, the innermost first. -/
  outside : List (Option Obstacle)

/-- The furthest obstacle of all. -/
def Obstacles.furthest (o : Obstacles) : Option Obstacle :=
  o.outside.foldl (fun inside outside => Obstacle.merge? outside inside) o.inside

/-- The furthest obstacles after a step. -/
def observe (r : Reading) (o : Obstacles) : Obstacles :=
  match r.place with
  | .term _ =>
    if (Grammar.opening.run r.tokens).isSome then ⟨none, o.inside :: o.outside⟩
    else { o with inside :=
      Grammar.operand.obstacle r.tokens (Grammar.opening.obstacle r.tokens o.inside) }
  | .behind _ =>
    let inside := Grammar.operator.obstacle r.tokens o.inside
    if (Grammar.operator.run r.tokens).isSome then { o with inside }
    else match o.outside with
      | [] => { o with inside }
      | before :: outside =>
        ⟨Obstacle.merge? before (Grammar.closing.obstacle r.tokens inside), outside⟩

/-- The furthest obstacle after at most `n` steps. -/
def report : Nat → Reading → Obstacles → Option Obstacle
  | 0, _, o => o.furthest
  | n + 1, r, o =>
    match r.step with
    | .inl next => report n next (r.observe o)
    | .inr _ => (r.observe o).furthest

end Reading

/-- An expression without its cast.  Each step but the last takes a token, so the number of tokens
bounds the steps. -/
def Grammar.expression : Parser Tree where
  run ls := (Reading.start ls).run (ls.length + 1)
  obstacle ls o := (Reading.start ls).report (ls.length + 1) ⟨o, []⟩

/-! ## Whole texts -/

/-- An expression with its cast. -/
def Grammar.expr : Parser Expr :=
  ((Parser.labelled "expression" expression).both cast.optional).map fun (tree, cast) => ⟨tree, cast⟩

/-- The expression that a text is. -/
def Expr.parse (text : List Char) : Except ParseFailure Expr :=
  Grammar.expr.parseAll (tokenize text)

/-- The operand that a text is, if it is one that is resolved. -/
def InstructionOperand.parse (text : List Char) : Except ParseFailure InstructionOperand :=
  Grammar.instructionOperand.parseAll (tokenize text)

end LinkAsm
