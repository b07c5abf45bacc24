import Turtle.Token

/-!
# Errors of syntax

Why a source is no program, and the line on which that was seen.
-/

namespace Turtle

inductive Rule
  | statement | elsePart | factor | comparison
deriving DecidableEq, Repr

namespace Rule

def text : Rule → String
  | .statement => "a statement"
  | .elsePart => "'ELSIF', 'ELSE' or 'FI'"
  | .factor => "a number, variable or '('"
  | .comparison => "a comparison operator"

end Rule

namespace SyntaxError

inductive Cause
  | unexpectedToken (found : Token) (expected : Kind)
  | unrecognizedConstruct (found : Token) (rule : Rule)
  | invalidCharacter (slice : String)
deriving DecidableEq

def Cause.message : Cause → String
  | .unexpectedToken found expected =>
    "Unexpected token '" ++ found.text ++ "', Expecting '" ++ expected.text ++ "'"
  | .unrecognizedConstruct found rule => "Unexpected token '" ++ found.text ++ "', Expecting " ++ rule.text
  | .invalidCharacter slice => "Invalid character sequence '" ++ slice ++ "'"

end SyntaxError

structure SyntaxError where
  line : Nat
  cause : SyntaxError.Cause
deriving DecidableEq

namespace SyntaxError

def message (e : SyntaxError) : String := toString e.line ++ ": " ++ e.cause.message

end SyntaxError

end Turtle
