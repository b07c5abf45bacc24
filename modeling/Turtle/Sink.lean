import Turtle.Command

/-!
# Sinks

Where the commands of a run go. A sink that refuses a command may have taken a part of it.
-/

namespace Turtle

class Sink (σ : Type) where
  /-- Hands a command over: the sink after the attempt, and the reason if it was refused. -/
  emit : Command → σ → σ × Option String
  /-- Tells the sink that a loop begins this pass of its body. -/
  pass : Nat → σ → σ

instance : Sink (Array Command) where
  emit c cs := (cs.push c, none)
  pass _ cs := cs

/-! ## Text -/

structure TextSink where
  written : String
  /-- The number of characters that still fit; all of them if there is none. -/
  room : Option Nat
  /-- Why a write fails once the store is full. -/
  full : String
  /-- Why emptying the buffer fails, if it does. -/
  jam : Option String

namespace TextSink

def unbounded : TextSink := ⟨"", none, "", none⟩

def write (sink : TextSink) (cs : List Char) : TextSink × Option String :=
  match sink.room with
  | none => ({ sink with written := sink.written ++ .ofList cs }, none)
  | some room =>
    ({ sink with written := sink.written ++ .ofList (cs.take room), room := some (room - cs.length) },
      if cs.length ≤ room then none else some sink.full)

/-- Empties the buffer, in which nothing is left: a write has gone through when it returns. -/
def flush (sink : TextSink) : Option String := sink.jam

end TextSink

instance : Sink TextSink where
  emit c sink := sink.write c.line
  pass _ sink := sink

/-! ## Standard output -/

/-- Text on its way out: what has been delivered, and what waits in a buffer. Whoever ends without
emptying the buffer loses what waits. -/
structure OutputBuffer where
  delivered : String
  waiting : String

namespace OutputBuffer

/-- In bytes. -/
def capacity : Nat := 8192

def empty : OutputBuffer := ⟨"", ""⟩

def flush (out : OutputBuffer) : OutputBuffer := ⟨out.delivered ++ out.waiting, ""⟩

/-- What does not fit makes room for itself, and what is as large as the buffer goes past it. -/
def write (out : OutputBuffer) (text : String) : OutputBuffer :=
  let out := if capacity < out.waiting.utf8ByteSize + text.utf8ByteSize then out.flush else out
  if capacity ≤ text.utf8ByteSize then { out with delivered := out.delivered ++ text }
  else { out with waiting := out.waiting ++ text }

end OutputBuffer

instance : Sink OutputBuffer where
  emit c out := (out.write (.ofList c.line), none)
  pass _ out := out

end Turtle
