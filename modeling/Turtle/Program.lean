import Turtle.Number.Magnitude

/-!
# Programs

The trees that a source stands for. Conditions are expressions too: comparisons and connectives answer 1 or 0.
-/

namespace Turtle

inductive Operator
  | add | sub | mul | div | and | or
  | equal | notEqual | less | greater | lessEqual | greaterEqual
deriving DecidableEq, Repr

inductive Expr
  | variable (name : String)
  | constant (value : Number)
  | negate (operand : Expr)
  | not (operand : Expr)
  | binary (op : Operator) (left right : Expr)
deriving DecidableEq

inductive Action
  | home | penUp | penDown | pushState | popState
deriving DecidableEq, Repr

inductive Motion
  | forward | left | right
deriving DecidableEq, Repr

/-- Statements. An arm that another condition opens is a conditional in the place of the alternative. -/
inductive Stmt
  | assign (name : String) (value : Expr)
  | block (body : List Stmt)
  | while (condition : Expr) (body : Stmt)
  | conditional (condition : Expr) (body : Stmt) (alternative : Option Stmt)
  | action (act : Action)
  | motion (move : Motion) (amount : Expr)

structure Program where
  statements : List Stmt

namespace Operator

def all : List Operator :=
  [.add, .sub, .mul, .div, .and, .or, .equal, .notEqual, .less, .greater, .lessEqual, .greaterEqual]

theorem mem_all (op : Operator) : op ∈ all := by cases op <;> decide

def isArithmetic (op : Operator) : Bool := op ∈ [.add, .sub, .mul, .div]

def isRelational (op : Operator) : Bool :=
  op ∈ [.equal, .notEqual, .less, .greater, .lessEqual, .greaterEqual]

end Operator

end Turtle
