import Turtle.Log
import Turtle.Proofs.Execution.Sinks
import Turtle.Proofs.Sink.Records

/-!
# Text without bounds

A run writes the records of the commands that it would collect in a list, one per line, and ends in the
same way. It makes no difference to this whether a log is kept, or whether the text goes through a
buffer, once that is emptied.
-/

namespace Turtle

namespace TextSink

def holding (cs : Array Command) : TextSink := { unbounded with written := .ofList (lines cs.toList) }

theorem sinkMap_holding : SinkMap holding where
  emit c cs := by
    have written : String.ofList (lines cs.toList) ++ String.ofList c.line =
        .ofList (lines (cs.push c).toList) := by
      rw [Array.toList_push, lines_append, String.ofList_append, lines, lines, List.flatMap_singleton]
    exact congrArg (fun text => ({ unbounded with written := text }, none)) written
  pass _ _ := rfl

end TextSink

/-- What a run writes is the text of what it would collect. -/
theorem Program.exec_unbounded (p : Program) (limit : Nat) (vars : Variables) :
    p.exec limit ⟨vars, TextSink.unbounded⟩ = (p.exec limit ⟨vars, #[]⟩).map (Ending.map TextSink.holding) :=
  TextSink.sinkMap_holding.execAll limit p.statements ⟨vars, #[]⟩

/-! ## Buffers -/

namespace OutputBuffer

def taken (out : OutputBuffer) : TextSink :=
  { TextSink.unbounded with written := out.delivered ++ out.waiting }

theorem taken_flush (out : OutputBuffer) : out.flush.taken = out.taken := by
  rw [taken, flush, String.append_empty, taken]

theorem taken_write (out : OutputBuffer) (text : String) :
    (out.write text).taken = { out.taken with written := out.taken.written ++ text } := by
  have waits (out : OutputBuffer) : (OutputBuffer.mk out.delivered (out.waiting ++ text)).taken =
      { out.taken with written := out.taken.written ++ text } := by
    rw [taken, taken, String.append_assoc]
  have passes {out : OutputBuffer} (h : out.waiting = "") :
      (OutputBuffer.mk (out.delivered ++ text) out.waiting).taken =
        { out.taken with written := out.taken.written ++ text } := by
    rw [taken, taken, h, String.append_empty, String.append_empty]
  unfold write
  by_cases full : capacity < out.waiting.utf8ByteSize + text.utf8ByteSize
  · rw [if_pos full, ← taken_flush out]
    dsimp only
    split
    · exact passes rfl
    · exact waits out.flush
  · rw [if_neg full]
    dsimp only
    split
    · -- a text as large as the buffer fits only if nothing waits
      have none : out.waiting.utf8ByteSize = 0 := by omega
      exact passes (String.utf8ByteSize_eq_zero_iff.mp none)
    · exact waits out

theorem sinkMap_taken : SinkMap taken where
  emit c out := congrArg (·, none) (taken_write out (.ofList c.line)).symm
  pass _ _ := rfl

/-- What has been delivered when the buffer is emptied at the end is the text of what
the run would collect. -/
theorem exec_taken (p : Program) (limit : Nat) (vars : Variables) :
    (p.exec limit ⟨vars, empty⟩).map (Ending.map taken) =
      (p.exec limit ⟨vars, #[]⟩).map (Ending.map TextSink.holding) := by
  rw [← p.exec_unbounded]
  exact (sinkMap_taken.execAll limit p.statements ⟨vars, empty⟩).symm

end OutputBuffer

/-! ## Logs -/

namespace Logged

variable {σ : Type} [Sink σ]

theorem sinkMap_sink : SinkMap (Logged.sink : Logged σ → σ) where
  emit _ _ := rfl
  pass _ _ := rfl

theorem exec_sink (p : Program) (limit : Nat) (vars : Variables) (l : Logged σ) :
    p.exec limit ⟨vars, l.sink⟩ = (p.exec limit ⟨vars, l⟩).map (Ending.map Logged.sink) :=
  sinkMap_sink.execAll limit p.statements ⟨vars, l⟩

theorem tracks_trace :
    Tracks fun (l : Logged σ) _ l' => ∀ line ∈ l'.log, line ∈ l.log ∨ line.level = .trace where
  idle _ _ h := .inl h
  stop _ _ _ _ h := .inl h
  emit c l line h := by
    rcases Array.mem_push.mp h with h | rfl
    · exact .inl h
    · exact .inr rfl
  pass n l line h := by
    rcases Array.mem_push.mp h with h | rfl
    · exact .inl h
    · exact .inr rfl
  trans h h' line hl := (h' line hl).elim (h line) .inr

end Logged

end Turtle
