/-!
# Failures

Why a run stops before its end.
-/

namespace Turtle

inductive OperatorSort
  | arithmetic | comparison
deriving DecidableEq, Repr

inductive Failure
  | unknownVariable (name : String)
  | divisionByZero
  | output (details : String)
  /-- A function of numbers was given an operator of another sort. No run of a program ends this way. -/
  | misapplied (sort : OperatorSort)
deriving DecidableEq

namespace Failure

def message : Failure → String
  | .unknownVariable name => "Runtime error: Unknown variable '" ++ name ++ "'."
  | .divisionByZero => "Runtime error: Division by zero."
  | .output details => "Runtime error: Failed to write command: " ++ details ++ "."
  | .misapplied .arithmetic =>
    "internal error: entered unreachable code: eval_arithmetic used with non arithmetic operator"
  | .misapplied .comparison =>
    "internal error: entered unreachable code: eval_comparison used with non comparison operator"

end Failure

end Turtle
