import Turtle.Number.Shortest

/-!
# Device commands

What a turtle device is told to do, and the record that each command is written as.
-/

namespace Turtle

/-- Moves go ahead, rotations to the left. -/
inductive Command
  | home | penUp | penDown | pushState | popState
  | move (distance : Number)
  | rotate (angle : Number)
deriving DecidableEq

namespace Command

def chars : Command → List Char
  | .home => ['H']
  | .penUp => ['U']
  | .penDown => ['D']
  | .pushState => ['[']
  | .popState => [']']
  | .move v => 'M' :: ' ' :: v.chars
  | .rotate v => 'R' :: ' ' :: v.chars

def text (c : Command) : String := .ofList c.chars

def line (c : Command) : List Char := c.chars ++ ['\n']

end Command

end Turtle
