import Turtle.Program.Words

/-!
# Programs as text

Every operation is written with its own pair of parentheses, so that the tree can be seen. Statements
stand one to a line, two blanks deeper inside each loop or conditional; a block itself leaves no mark.
-/

namespace Turtle

namespace Expr

def chars : Expr → List Char
  | .variable name => name.toList
  | .constant v => v.chars
  | .negate e => '(' :: '-' :: e.chars ++ [')']
  | .not e => '(' :: "NOT ".toList ++ e.chars ++ [')']
  | .binary op l r => '(' :: l.chars ++ ' ' :: op.text.toList ++ ' ' :: r.chars ++ [')']

def text (e : Expr) : String := .ofList e.chars

end Expr

namespace Stmt

def line (depth : Nat) (words : List (List Char)) : List Char :=
  .replicate (2 * depth) ' ' ++ [' '].intercalate words

def word (k : Keyword) : List Char := k.text.toList

mutual

def lines (depth : Nat) : Stmt → List (List Char)
  | .assign name e => [line depth [name.toList, Symbol.assign.text.toList, e.chars]]
  | .block body => linesOfAll depth body
  | .while c body =>
    line depth [word .while, c.chars, word .do] :: body.lines (depth + 1) ++ [line depth [word .od]]
  | .conditional c body other =>
    line depth [word .if, c.chars, word .then] :: body.lines (depth + 1) ++
      linesOfAlternative depth other ++ [line depth [word .fi]]
  | .action a => [line depth [word a.keyword]]
  | .motion m e => [line depth [word m.keyword, e.chars]]

def linesOfAll (depth : Nat) : List Stmt → List (List Char)
  | [] => []
  | s :: ss => s.lines depth ++ linesOfAll depth ss

def linesOfAlternative (depth : Nat) : Option Stmt → List (List Char)
  | none => []
  | some s => line depth [word .else] :: s.lines (depth + 1)

end

end Stmt

namespace Program

def chars (p : Program) : List Char := (Stmt.linesOfAll 0 p.statements).flatMap (· ++ ['\n'])

def text (p : Program) : String := .ofList p.chars

end Program

end Turtle
