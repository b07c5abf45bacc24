import Turtle.Program.Words
import Turtle.Reading
import Turtle.SyntaxError

/-!
# From readings to programs

A recursive descent with one token of lookahead. A `Cursor` holds that token; moving it on is the only
place where an answer is read, so that an answer that is no token is an error as soon as it would become
the lookahead.

A rule that nests takes a bound on the depth, and a rule that repeats a bound on the number of rounds.
One more than the number of readings left is always enough, since each nesting and each round moves the
cursor on; past the bound the rules answer as they do at the end of the text.
-/

namespace Turtle

/-- The lookahead, the line reached by reading it, and the readings behind it. -/
structure Cursor where
  token : Token
  line : Nat
  rest : List Reading

namespace Cursor

def next (line : Nat) : List Reading → Except SyntaxError Cursor
  | [] => .ok ⟨.eot, line, []⟩
  | r :: rest =>
    match r.answer with
    | .ok t => .ok ⟨t, r.line, rest⟩
    | .error slice => .error ⟨r.line, .invalidCharacter slice⟩

def advance (c : Cursor) : Except SyntaxError Cursor := next c.line c.rest

def expect (c : Cursor) (kind : Kind) : Except SyntaxError Cursor :=
  if c.token.kind = kind then c.advance else .error ⟨c.line, .unexpectedToken c.token kind⟩

def unrecognized (c : Cursor) (rule : Rule) : SyntaxError := ⟨c.line, .unrecognizedConstruct c.token rule⟩

end Cursor

abbrev Parser (α : Type) := Cursor → Except SyntaxError (α × Cursor)

namespace Parser

/-! ## Chains of operators -/

def chainRest (ops : List Operator) (operand : Parser Expr) : Nat → Expr → Parser Expr
  | 0, left, c => .ok (left, c)
  | rounds + 1, left, c =>
    match Operator.among ops c.token with
    | none => .ok (left, c)
    | some op => do
      let (right, c) ← operand (← c.advance)
      chainRest ops operand rounds (.binary op left right) c

def chain (limit : Nat) (ops : List Operator) (operand : Parser Expr) : Parser Expr := fun c => do
  let (left, c) ← operand c
  chainRest ops operand limit left c

/-! ## Arithmetic -/

def sum (limit : Nat) (factor : Parser Expr) : Parser Expr :=
  chain limit [.add, .sub] (chain limit [.mul, .div] factor)

/-- A sign before a factor, a sum in parentheses, a variable or a number. A plus leaves no trace. -/
def factor (limit : Nat) : Nat → Parser Expr
  | 0, c => .error (c.unrecognized .factor)
  | depth + 1, c =>
    match c.token with
    | .symbol .plus => do factor limit depth (← c.advance)
    | .symbol .minus => do
      let (e, c) ← factor limit depth (← c.advance)
      return (.negate e, c)
    | .symbol .lparen => do
      let (e, c) ← sum limit (factor limit depth) (← c.advance)
      return (e, ← c.expect (.symbol .rparen))
    | .identifier name => return (.variable name, ← c.advance)
    | .real v => return (.constant v, ← c.advance)
    | _ => .error (c.unrecognized .factor)

def expression (limit : Nat) : Parser Expr := sum limit (factor limit limit)

/-! ## Conditions -/

def comparison (limit : Nat) : Parser Expr := fun c => do
  let (left, c) ← expression limit c
  match (Operator.ofToken? c.token).filter Operator.isRelational with
  | none => .error (c.unrecognized .comparison)
  | some op =>
    let (right, c) ← expression limit (← c.advance)
    return (.binary op left right, c)

def disjunction (limit : Nat) (boolean : Parser Expr) : Parser Expr :=
  chain limit [.or] (chain limit [.and] boolean)

/-- A negated condition, a condition in parentheses or a comparison. A parenthesis that opens here opens a
condition, never the left side of a comparison. -/
def boolean (limit : Nat) : Nat → Parser Expr
  | 0, c => .error (c.unrecognized .factor)
  | depth + 1, c =>
    match c.token with
    | .keyword .not => do
      let (e, c) ← boolean limit depth (← c.advance)
      return (.not e, c)
    | .symbol .lparen => do
      let (e, c) ← disjunction limit (boolean limit depth) (← c.advance)
      return (e, ← c.expect (.symbol .rparen))
    | _ => comparison limit c

def condition (limit : Nat) : Parser Expr := disjunction limit (boolean limit limit)

/-! ## Statements -/

def blockRest (statement : Parser Stmt) : Nat → Parser (List Stmt)
  | 0, c => .ok ([], c)
  | rounds + 1, c =>
    if c.token.startsStatement then do
      let (s, c) ← statement c
      let (ss, c) ← blockRest statement rounds c
      return (s :: ss, c)
    else .ok ([], c)

def block (limit : Nat) (statement : Parser Stmt) : Parser Stmt := fun c => do
  let (s, c) ← statement c
  let (ss, c) ← blockRest statement limit c
  return (.block (s :: ss), c)

def arm (limit : Nat) (block : Parser Stmt) (elsePart : Parser (Option Stmt)) : Parser Stmt := fun c => do
  let (test, c) ← condition limit c
  let (body, c) ← block (← c.expect (.keyword .then))
  let (alternative, c) ← elsePart c
  return (.conditional test body alternative, c)

/-- What ends a conditional: another arm, which takes the one closing word for all, or an alternative, or
nothing before that word. -/
def elsePart (limit : Nat) (block : Parser Stmt) : Nat → Parser (Option Stmt)
  | 0, c => .error (c.unrecognized .elsePart)
  | rounds + 1, c =>
    match c.token with
    | .keyword .elsif => do
      let (s, c) ← arm limit block (elsePart limit block rounds) (← c.advance)
      return (some s, c)
    | .keyword .else => do
      let (s, c) ← block (← c.advance)
      return (some s, ← c.expect (.keyword .fi))
    | .keyword .fi => return (none, ← c.advance)
    | _ => .error (c.unrecognized .elsePart)

def deed (limit : Nat) (k : Keyword) : Parser Stmt := fun c =>
  match Action.ofKeyword? k, Motion.ofKeyword? k with
  | some a, _ => return (.action a, ← c.advance)
  | none, some m => do
    let (amount, c) ← expression limit (← c.advance)
    return (.motion m amount, c)
  | none, none => .error (c.unrecognized .statement)

def statement (limit : Nat) : Nat → Parser Stmt
  | 0, c => .error (c.unrecognized .statement)
  | depth + 1, c =>
    match c.token with
    | .identifier name => do
      let (value, c) ← expression limit (← (← c.advance).expect (.symbol .assign))
      return (.assign name value, c)
    | .keyword .while => do
      let (test, c) ← condition limit (← c.advance)
      let (body, c) ← block limit (statement limit depth) (← c.expect (.keyword .do))
      return (.while test body, ← c.expect (.keyword .od))
    | .keyword .if => do
      let inner := block limit (statement limit depth)
      arm limit inner (elsePart limit inner limit) (← c.advance)
    | .keyword k => deed limit k c
    | _ => .error (c.unrecognized .statement)

/-- Nothing, or one block, and then the end of the text. A block takes all it can, so
that no other can follow. -/
def program (limit : Nat) : Parser Program := fun c => do
  if c.token = .eot then return (⟨[]⟩, c)
  let (s, c) ← block limit (statement limit limit) c
  if c.token = .eot then return (⟨[s]⟩, c)
  throw (c.unrecognized .statement)

end Parser

namespace Program

def read (rs : List Reading) : Except SyntaxError (Program × Cursor) := do
  Parser.program (rs.length + 1) (← Cursor.next 1 rs)

def ofReadings (rs : List Reading) : Except SyntaxError Program := do return (← read rs).1

def ofSource (source : String) : Except SyntaxError Program := ofReadings (readings source)

end Program

end Turtle
