import Turtle.Token
import Turtle.Program

/-!
# The words of a program

The token that each operator and action is written by, and the way back from a token to the operator or
action.
-/

namespace Turtle

namespace Operator

def token : Operator → Token
  | .add => .symbol .plus | .sub => .symbol .minus | .mul => .symbol .star | .div => .symbol .slash
  | .and => .keyword .and | .or => .keyword .or
  | .equal => .symbol .equal | .notEqual => .symbol .notEqual
  | .less => .symbol .less | .greater => .symbol .greater
  | .lessEqual => .symbol .lessEqual | .greaterEqual => .symbol .greaterEqual

def text (op : Operator) : String := op.token.text

def among (ops : List Operator) (t : Token) : Option Operator := ops.find? fun op => op.token = t

def ofToken? (t : Token) : Option Operator := among all t

theorem token_of_among {ops : List Operator} {t : Token} {op : Operator} (h : among ops t = some op) :
    op ∈ ops ∧ op.token = t :=
  ⟨List.mem_of_find?_eq_some h, by simpa using List.find?_some h⟩

theorem token_injective {a b : Operator} (h : a.token = b.token) : a = b := by
  cases a <;> cases b <;> first | rfl | exact absurd h (by decide)

end Operator

namespace Action

def keyword : Action → Keyword
  | .home => .home | .penUp => .penUp | .penDown => .penDown
  | .pushState => .pushState | .popState => .popState

def ofKeyword? : Keyword → Option Action
  | .home => some .home | .penUp => some .penUp | .penDown => some .penDown
  | .pushState => some .pushState | .popState => some .popState
  | _ => none

theorem ofKeyword?_eq_some {k : Keyword} {a : Action} : ofKeyword? k = some a ↔ a.keyword = k := by
  cases k <;> cases a <;> decide

end Action

namespace Motion

def keyword : Motion → Keyword
  | .forward => .forward | .left => .left | .right => .right

def ofKeyword? : Keyword → Option Motion
  | .forward => some .forward | .left => some .left | .right => some .right
  | _ => none

theorem ofKeyword?_eq_some {k : Keyword} {m : Motion} : ofKeyword? k = some m ↔ m.keyword = k := by
  cases k <;> cases m <;> decide

end Motion

end Turtle
