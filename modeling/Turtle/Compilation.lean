import Turtle.Execution
import Turtle.Grammar.Descent
import Turtle.Log

/-!
# Compilation

A source is read, then run into a list of commands. The log tells what was found and, after a run that did not
fail, how it ended.
-/

namespace Turtle

inductive CompileError
  | refused (e : SyntaxError)
  | failed (f : Failure)
deriving DecidableEq

namespace CompileError

def message : CompileError → String
  | .refused e => e.message
  | .failed f => f.message

end CompileError

structure Compilation where
  result : Except CompileError (Array Command)
  vars : Variables
  log : List LogLine

namespace Compilation

def parsedLine (p : Program) : LogLine :=
  ⟨.debug, "parsed " ++ toString p.statements.length ++ " top-level statement(s)"⟩

def countLine (commands : Array Command) (vars : Variables) : LogLine :=
  ⟨.debug, "execution emitted " ++ toString commands.size ++ " command(s), " ++ toString vars.bindings.size ++
    " variable(s) bound"⟩

def bindingLines (vars : Variables) : List LogLine :=
  let texts := vars.bindings.entries.map fun e => "final binding " ++ e.1 ++ " = " ++ e.2.text
  (texts.mergeSort fun a b => decide (a ≤ b)).map fun t => ⟨.debug, t⟩

end Compilation

/-- Reads a source and runs it. A bound that is too small for one of the loops gives `none`. -/
def compile (limit : Nat) (source : String) (vars : Variables) : Option Compilation :=
  match Program.ofSource source with
  | .error e => some ⟨.error (.refused e), vars, []⟩
  | .ok p =>
    let start : Machine (Logged (Array Command)) := ⟨vars, ⟨#[], #[Compilation.parsedLine p]⟩⟩
    (p.exec limit start).map fun e =>
      let vars := e.machine.vars
      let log := e.machine.sink.log.toList
      match e.failure with
      | some f => ⟨.error (.failed f), vars, log⟩
      | none =>
        let commands := e.machine.sink.sink
        ⟨.ok commands, vars,
          log ++ Compilation.countLine commands vars :: Compilation.bindingLines vars⟩

end Turtle
