import Turtle.Number.Shortest

/-!
# Tokens

The words a program is made of. A `Token` carries what it says, its `Kind` is what a rule of the grammar
can ask for. Comments and blanks are tokens too, but of no kind that a rule asks for: they count as the
end of text.
-/

namespace Turtle

inductive Keyword
  | home | penUp | penDown | forward | left | right | pushState | popState
  | while | do | od | if | then | elsif | else | fi | and | or | not
deriving DecidableEq, Repr

inductive Symbol
  | assign | plus | minus | star | slash
  | equal | notEqual | less | greater | lessEqual | greaterEqual | lparen | rparen
deriving DecidableEq, Repr

inductive Filler
  | lineComment | blockComment | newline | blank
deriving DecidableEq, Repr

inductive Token
  | real (value : Number)
  | identifier (name : String)
  | keyword (word : Keyword)
  | symbol (sign : Symbol)
  | filler (kind : Filler)
  | eot
deriving DecidableEq

inductive Kind
  | real | identifier | keyword (word : Keyword) | symbol (sign : Symbol) | eot
deriving DecidableEq, Repr

/-! ## Spelling -/

namespace Keyword

def text : Keyword → String
  | .home => "HOME" | .penUp => "PENUP" | .penDown => "PENDOWN"
  | .forward => "FORWARD" | .left => "LEFT" | .right => "RIGHT"
  | .pushState => "PUSHSTATE" | .popState => "POPSTATE"
  | .while => "WHILE" | .do => "DO" | .od => "OD"
  | .if => "IF" | .then => "THEN" | .elsif => "ELSIF" | .else => "ELSE" | .fi => "FI"
  | .and => "AND" | .or => "OR" | .not => "NOT"

def all : List Keyword :=
  [.home, .penUp, .penDown, .forward, .left, .right, .pushState, .popState,
   .while, .do, .od, .if, .then, .elsif, .else, .fi, .and, .or, .not]

theorem mem_all (k : Keyword) : k ∈ all := by cases k <;> decide

def ofText? (s : String) : Option Keyword := all.find? fun k => k.text = s

theorem ofText?_text (k : Keyword) : ofText? k.text = some k := by cases k <;> decide

theorem text_of_ofText? {s : String} {k : Keyword} (h : ofText? s = some k) : k.text = s := by
  simpa using List.find?_some h

end Keyword

namespace Symbol

def text : Symbol → String
  | .assign => ":=" | .plus => "+" | .minus => "-" | .star => "*" | .slash => "/"
  | .equal => "=" | .notEqual => "<>" | .less => "<" | .greater => ">"
  | .lessEqual => "<=" | .greaterEqual => ">=" | .lparen => "(" | .rparen => ")"

/-- The longer ones first, so that the first one a text begins with is the longest. -/
def all : List Symbol :=
  [.assign, .notEqual, .lessEqual, .greaterEqual, .plus, .minus, .star, .slash, .equal, .less, .greater,
   .lparen, .rparen]

theorem mem_all (s : Symbol) : s ∈ all := by cases s <;> decide

theorem toList_text_ne_nil (s : Symbol) : s.text.toList ≠ [] := by cases s <;> decide

end Symbol

namespace Kind

def text : Kind → String
  | .real => "number"
  | .identifier => "identifier"
  | .keyword k => k.text
  | .symbol s => s.text
  | .eot => "end of text"

end Kind

namespace Token

def kind : Token → Kind
  | .real _ => .real
  | .identifier _ => .identifier
  | .keyword k => .keyword k
  | .symbol s => .symbol s
  | .filler _ | .eot => .eot

/-- A token as a message shows it: names and numbers by themselves, all others by their kind. -/
def text : Token → String
  | .real v => v.text
  | .identifier name => name
  | t => t.kind.text

def ofWord (s : String) : Token :=
  match Keyword.ofText? s with
  | some k => .keyword k
  | none => .identifier s

/-! ## Tokens that begin or join constructs -/

def startsStatement : Token → Bool
  | .identifier _ => true
  | .keyword k =>
    k ∈ [.while, .if, .home, .penUp, .penDown, .forward, .left, .right, .pushState, .popState]
  | _ => false

end Token

end Turtle
