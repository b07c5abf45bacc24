import Turtle.CommandLine.Help
import Turtle.Compilation
import Turtle.Program.Text

/-!
# The command line

A run of the compiler as a function of its arguments and of the files it can read: what it writes to standard
output and standard error, and its exit status.
-/

namespace Turtle.CommandLine

structure Outcome where
  status : Nat
  stdout : String
  stderr : List String
deriving DecidableEq

def levelOf : Nat → Level
  | 0 => .warn
  | 1 => .info
  | 2 => .debug
  | _ => .trace

def unreadable (name : String) : String :=
  "Failed to read the input file '" ++ name ++ "'. Perhaps this file does not exist?"

namespace Invocation

def startVariables (i : Invocation) : Variables :=
  i.definitions.foldl (fun vars d => vars.put d.name d.value)
    { Variables.empty with policy := if i.lenient then .default .zero else .reject }

def definitionLine (d : Definition) : LogLine := ⟨.info, "binding " ++ d.name ++ " = " ++ d.value.text⟩

def exec (limit : Nat) (i : Invocation) (p : Program) : Option (Ending (Logged OutputBuffer)) :=
  let log := Compilation.parsedLine p :: i.definitions.map definitionLine
  p.exec limit ⟨i.startVariables, ⟨.empty, log.toArray⟩⟩

def shown (i : Invocation) (log : List LogLine) : List String :=
  (LogLine.upTo (levelOf i.verbosity) log).map LogLine.text

/-- The buffer is emptied before the failure is looked at, so that commands emitted
before it are delivered. -/
def outcome (i : Invocation) (e : Ending (Logged OutputBuffer)) : Outcome :=
  let log := i.shown e.machine.sink.log.toList
  let stdout := e.machine.sink.sink.flush.delivered
  match e.failure with
  | none => ⟨0, stdout, log⟩
  | some f => ⟨1, stdout, log ++ [f.message]⟩

def runSource (limit : Nat) (i : Invocation) (source : String) : Option Outcome :=
  match Program.ofSource source with
  | .error e => some ⟨1, "", [e.message]⟩
  | .ok p =>
    if i.ast then some ⟨0, p.text, i.shown [Compilation.parsedLine p]⟩
    else (i.exec limit p).map i.outcome

end Invocation

def run (limit : Nat) (files : String → Option String) (words : List String) : Option Outcome :=
  match Request.ofWords words with
  | .error e => some ⟨2, "", [e.message]⟩
  | .ok .help => some ⟨0, help, []⟩
  | .ok .version => some ⟨0, "turtlec 0.1.0\n", []⟩
  | .ok (.run i) =>
    if i.file then
      match files i.program with
      | some source => i.runSource limit source
      | none => some ⟨1, "", [unreadable i.program]⟩
    else i.runSource limit i.program

end Turtle.CommandLine
