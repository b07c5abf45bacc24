import Turtle.Program
import Turtle.Variables

/-!
# Evaluation

Every expression is a number. The connectives look at their right side only if the left one leaves the answer
open; all other operators take both sides, the left one first.
-/

namespace Turtle

namespace Number

def zero : Number := .ofBits 0

def one : Number := .ofBits 0x3f800000

/-- Every number but the zeros counts as true, also the value that is no number. -/
def isTrue (v : Number) : Bool := !(v == zero)

def ofBool (b : Bool) : Number := if b then one else zero

end Number

namespace Operator

/-- Single precision arithmetic, rounded at each step; only division can fail. -/
def arithmetic (op : Operator) (left right : Number) : Except Failure Number :=
  match op with
  | .add => .ok (left + right)
  | .sub => .ok (left - right)
  | .mul => .ok (left * right)
  | .div => if right == Number.zero then .error .divisionByZero else .ok (left / right)
  | _ => .error (.misapplied .arithmetic)

def comparison (op : Operator) (left right : Number) : Except Failure Number :=
  match op with
  | .equal => .ok (.ofBool (left == right))
  | .notEqual => .ok (.ofBool !(left == right))
  | .less => .ok (.ofBool (left < right))
  | .greater => .ok (.ofBool (right < left))
  | .lessEqual => .ok (.ofBool (left ≤ right))
  | .greaterEqual => .ok (.ofBool (right ≤ left))
  | _ => .error (.misapplied .comparison)

end Operator

namespace Expr

def eval (vars : Variables) : Expr → Except Failure Number
  | .variable name => vars.get name
  | .constant v => .ok v
  | .negate e => do return -(← e.eval vars)
  | .not e => do return .ofBool !(← e.eval vars).isTrue
  | .binary .and l r => do
    if (← l.eval vars).isTrue then return .ofBool (← r.eval vars).isTrue else return .ofBool false
  | .binary .or l r => do
    if (← l.eval vars).isTrue then return .ofBool true else return .ofBool (← r.eval vars).isTrue
  | .binary op l r => do
    let left ← l.eval vars
    let right ← r.eval vars
    if op.isArithmetic then op.arithmetic left right else op.comparison left right

def holds (vars : Variables) (e : Expr) : Except Failure Bool := do return (← e.eval vars).isTrue

end Expr

end Turtle
