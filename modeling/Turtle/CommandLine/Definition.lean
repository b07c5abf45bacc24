import Turtle.Number.Numeral

/-!
# Definitions

A variable defined on the command line is written `NAME=VALUE`. Blanks around the name and around the value do
not count, where a blank is any character of white space in the sense of the Unicode standard.
-/

namespace Turtle.CommandLine

/-- The characters with the property `White_Space`. -/
def isWhite (c : Char) : Bool :=
  let n := c.toNat
  (0x09 ≤ n && n ≤ 0x0d) || n = 0x20 || n = 0x85 || n = 0xa0 || n = 0x1680 || (0x2000 ≤ n && n ≤ 0x200a) ||
    n = 0x2028 || n = 0x2029 || n = 0x202f || n = 0x205f || n = 0x3000

def trim (cs : List Char) : List Char :=
  ((cs.dropWhile isWhite).reverse.dropWhile isWhite).reverse

structure Definition where
  name : String
  value : Number
deriving DecidableEq

namespace Definition

inductive Defect
  | noValue (text : String)
  | badValue (name : String) (e : Number.TextError)
deriving DecidableEq

def Defect.message : Defect → String
  | .noValue text => "expected NAME=VALUE, found '" ++ text ++ "'"
  | .badValue name e => "invalid value for '" ++ name ++ "': " ++ e.message

def ofText (text : String) : Except Defect Definition :=
  let cs := text.toList
  let name := cs.takeWhile (· ≠ '=')
  match cs.dropWhile (· ≠ '=') with
  | [] => .error (.noValue text)
  | _ :: value =>
    match Number.ofChars (trim value) with
    | .ok v => .ok ⟨.ofList (trim name), v⟩
    | .error e => .error (.badValue (.ofList name) e)

end Definition

end Turtle.CommandLine
