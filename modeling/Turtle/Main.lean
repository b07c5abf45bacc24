import Turtle.CommandLine

/-!
# The program

Reads the arguments and the one file they may name, and writes what the run of the compiler answers.
-/

namespace Turtle

def textOf (name : String) : IO (Option String) := do
  try return some (← IO.FS.readFile name)
  catch _ => return none

def filesFor (words : List String) : IO (String → Option String) := do
  match CommandLine.Request.ofWords words with
  | .ok (.run i) =>
    if i.file then
      let text ← textOf i.program
      return fun name => if name = i.program then text else none
    else return fun _ => none
  | _ => return fun _ => none

/-- Runs with ever larger bounds on the passes of a loop, until one is large enough. -/
partial def finish (limit : Nat) (files : String → Option String) (words : List String) :
    IO CommandLine.Outcome :=
  match CommandLine.run limit files words with
  | some outcome => return outcome
  | none => finish (limit * limit) files words

end Turtle

def main (args : List String) : IO UInt32 := do
  let files ← Turtle.filesFor args
  let outcome ← Turtle.finish 4294967296 files args
  IO.print outcome.stdout
  outcome.stderr.forM IO.eprintln
  return outcome.status.toUInt32
