import Turtle.Sink

/-!
# Logs

What the compiler tells about its work, by level. `Logged` is a sink that keeps a log of what it is told and
passes the commands on.
-/

namespace Turtle

inductive Level
  | warn | info | debug | trace
deriving DecidableEq, Repr

namespace Level

def rank : Level → Nat
  | .warn => 0 | .info => 1 | .debug => 2 | .trace => 3

def text : Level → String
  | .warn => "WARN" | .info => "INFO" | .debug => "DEBUG" | .trace => "TRACE"

end Level

structure LogLine where
  level : Level
  message : String
deriving DecidableEq

namespace LogLine

def text (l : LogLine) : String := l.level.text ++ " " ++ l.message

/-- The lines that a log of this level shows: those of the level and of all rarer ones. -/
def upTo (level : Level) (log : List LogLine) : List LogLine := log.filter fun l => l.level.rank ≤ level.rank

end LogLine

structure Logged (σ : Type) where
  sink : σ
  log : Array LogLine

namespace Logged

def trace {σ : Type} (l : Logged σ) (message : String) : Logged σ :=
  { l with log := l.log.push ⟨.trace, message⟩ }

end Logged

instance {σ : Type} [Sink σ] : Sink (Logged σ) where
  emit c l :=
    let l := l.trace ("emit " ++ c.text)
    let (sink, refusal) := Sink.emit c l.sink
    ({ l with sink := sink }, refusal)
  pass n l :=
    let l := l.trace ("while iteration " ++ toString n)
    { l with sink := Sink.pass n l.sink }

end Turtle
