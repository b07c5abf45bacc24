import Turtle.Evaluation
import Turtle.Program.Words
import Turtle.Sink

/-!
# Execution

Statements act on a `Machine`: the variables and the sink. A run that fails keeps what was assigned and
emitted before. A loop need not end, so a run takes a bound on the passes of each loop and answers
`none` where one asks for more: a larger bound never changes an answer that a smaller one gives.
-/

namespace Turtle

structure Machine (σ : Type) where
  vars : Variables
  sink : σ

structure Ending (σ : Type) where
  machine : Machine σ
  failure : Option Failure

namespace Machine

variable {σ : Type}

def succeed (m : Machine σ) : Ending σ := ⟨m, none⟩

def fail (m : Machine σ) (f : Failure) : Ending σ := ⟨m, some f⟩

def emit [Sink σ] (m : Machine σ) (c : Command) : Ending σ :=
  let (sink, refusal) := Sink.emit c m.sink
  ⟨{ m with sink := sink }, refusal.map .output⟩

def pass [Sink σ] (m : Machine σ) (count : Nat) : Machine σ := { m with sink := Sink.pass count m.sink }

end Machine

def Ending.andThen {σ : Type} (e : Ending σ) (next : Machine σ → Option (Ending σ)) : Option (Ending σ) :=
  match e.failure with
  | none => next e.machine
  | some _ => some e

def Action.command : Action → Command
  | .home => .home
  | .penUp => .penUp
  | .penDown => .penDown
  | .pushState => .pushState
  | .popState => .popState

/-- The command of a motion: a turn to the right is one to the left by the negated angle. -/
def Motion.command : Motion → Number → Command
  | .forward, v => .move v
  | .left, v => .rotate v
  | .right, v => .rotate (-v)

section
variable {σ : Type} [Sink σ]

/-- A loop from its next test on, when `count` passes are over and fewer than `limit` may follow. -/
def iterate (test : Machine σ → Except Failure Bool) (body : Machine σ → Option (Ending σ)) :
    Nat → Nat → Machine σ → Option (Ending σ)
  | 0, _, _ => none
  | limit + 1, count, m =>
    match test m with
    | .error f => some (m.fail f)
    | .ok false => some m.succeed
    | .ok true =>
      match body (m.pass (count + 1)) with
      | none => none
      | some ⟨m', some f⟩ => some (m'.fail f)
      | some ⟨m', none⟩ => iterate test body limit (count + 1) m'

namespace Stmt

mutual

def exec (limit : Nat) : Stmt → Machine σ → Option (Ending σ)
  | .assign name value, m =>
    match value.eval m.vars with
    | .ok v => some { m with vars := m.vars.put name v }.succeed
    | .error f => some (m.fail f)
  | .block body, m => execAll limit body m
  | .while test body, m => iterate (fun m => test.holds m.vars) (fun m => body.exec limit m) limit 0 m
  | .conditional test body alternative, m =>
    match test.holds m.vars with
    | .ok true => body.exec limit m
    | .ok false => execAlternative limit alternative m
    | .error f => some (m.fail f)
  | .action a, m => some (m.emit a.command)
  | .motion k amount, m =>
    match amount.eval m.vars with
    | .ok v => some (m.emit (k.command v))
    | .error f => some (m.fail f)

def execAll (limit : Nat) : List Stmt → Machine σ → Option (Ending σ)
  | [], m => some m.succeed
  | s :: ss, m =>
    match s.exec limit m with
    | none => none
    | some e => e.andThen (execAll limit ss)

def execAlternative (limit : Nat) : Option Stmt → Machine σ → Option (Ending σ)
  | none, m => some m.succeed
  | some s, m => s.exec limit m

end

end Stmt

def Program.exec (limit : Nat) (p : Program) (m : Machine σ) : Option (Ending σ) :=
  Stmt.execAll limit p.statements m

end

end Turtle
