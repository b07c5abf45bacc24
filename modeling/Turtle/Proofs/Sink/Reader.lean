import Turtle.Proofs.Number.Negation
import Turtle.Proofs.Sink.Session
import Turtle.Proofs.Sink.Text

/-!
# Records read back

A reader that knows nothing of a run but the bytes that its commands were written as finds out the
commands: the line ends tell the records apart, and each record tells one command, the bits of its
number included.
-/

namespace Turtle

/-! ## A reader -/

def Command.ofChars? : List Char → Option Command
  | ['H'] => some .home
  | ['U'] => some .penUp
  | ['D'] => some .penDown
  | ['['] => some .pushState
  | [']'] => some .popState
  | 'M' :: ' ' :: number => (Number.ofChars number).toOption.map .move
  | 'R' :: ' ' :: number => (Number.ofChars number).toOption.map .rotate
  | _ => none

/-- The commands of a text of records. Each line has its end, so that nothing stands behind the last one. -/
def commandsOfLines? (text : List Char) : Option (List Command) :=
  let pieces := text.splitOn '\n'
  if pieces.getLast? = some [] then pieces.dropLast.mapM Command.ofChars? else none

def commandsOfBytes? (bs : List UInt8) : Option (List Command) :=
  (String.fromUTF8? ⟨bs.toArray⟩).bind fun text => commandsOfLines? text.toList

/-! ## What it reads -/

theorem Command.ofChars?_chars (c : Command) : ofChars? c.chars = some c := by
  have number (make : Number → Command) (v : Number) :
      (Number.ofChars v.chars).toOption.map make = some (make v) := by
    rw [Number.ofChars_chars]
    rfl
  cases c with
  | move v => exact number .move v
  | rotate v => exact number .rotate v
  | _ => rfl

theorem commandsOfLines?_lines (cs : List Command) : commandsOfLines? (lines cs) = some cs := by
  rw [commandsOfLines?, splitOn_lines, List.getLast?_concat, if_pos rfl, List.dropLast_concat, List.mapM_map,
    show Command.ofChars? ∘ Command.chars = some from funext Command.ofChars?_chars]
  exact (List.mapM_pure (f := id)).trans (congrArg some (List.map_id cs))

theorem fromUTF8?_bytes (s : String) : String.fromUTF8? ⟨(bytes s).toArray⟩ = some s := by
  rw [String.fromUTF8?, dif_pos (show (ByteArray.mk (bytes s).toArray).IsValidUTF8 from s.isValidUTF8)]
  rfl

theorem commandsOfBytes?_records (cs : List Command) : commandsOfBytes? (records cs) = some cs := by
  have written : records cs = bytes (.ofList (lines cs)) := by rw [(isPlain_lines cs).bytes, records_eq]
  rw [commandsOfBytes?, written, fromUTF8?_bytes, Option.bind_some, String.toList_ofList,
    commandsOfLines?_lines]

theorem records_injective {cs ds : List Command} (h : records cs = records ds) : cs = ds := by
  have read := commandsOfBytes?_records cs
  rw [h, commandsOfBytes?_records] at read
  exact (Option.some.inj read).symm

/-! ## What a sink has received -/

namespace TextSink

theorem performAll_emit (limit : Nat) (vars : Variables) (cs : List Command) (taken : Array Command) :
    performAll limit (cs.map .emit) ⟨vars, holding taken⟩ =
      some (⟨vars, holding (taken ++ cs.toArray)⟩, List.replicate cs.length none) := by
  induction cs generalizing taken with
  | nil =>
    rw [List.map_nil, performAll, Array.append_empty]
    rfl
  | cons c cs ih =>
    have emitted : (Machine.mk vars (holding taken)).emit c = ⟨⟨vars, holding (taken.push c)⟩, none⟩ :=
      sinkMap_holding.machine_emit ⟨vars, taken⟩ c
    rw [List.map_cons, performAll, Request.perform, emitted]
    dsimp only
    rw [ih, Option.map_some, List.toArray_cons, ← Array.append_assoc, ← Array.push_eq_append]
    rfl

theorem bytes_holding (cs : List Command) : bytes (holding cs.toArray).written = records cs := by
  rw [records_eq, ← (isPlain_lines cs).bytes]
  rfl

/-- A sink without bounds that is handed commands takes them all, as one line each, and from its bytes
alone the reader finds them out again, with each number by its bits. So no other commands are written as
the same text. Every pattern of bits is a number of its own here, but for those of what is no number,
which are all one. -/
theorem emitted_read (cs : List Command) (limit : Nat) (vars : Variables) :
    (∃ sink, performAll limit (cs.map .emit) ⟨vars, unbounded⟩ =
        some (⟨vars, sink⟩, List.replicate cs.length none) ∧
      bytes sink.written = (cs.map fun c => bytes c.text ++ [10]).flatten ∧
      (∀ c ∈ cs, 10 ∉ bytes c.text) ∧
      commandsOfBytes? (bytes sink.written) = some cs ∧
      ∀ ds vars' m rs, performAll limit (ds.map .emit) ⟨vars', unbounded⟩ = some (m, rs) →
        m.sink.written = sink.written → ds = cs) ∧
    ∀ b : UInt32, b.toNat % 2 ^ 31 ≤ 0x7f800000 → (Float32.ofBits b).toBits = b := by
  have performed (ds : List Command) (vars : Variables) : performAll limit (ds.map .emit) ⟨vars, unbounded⟩ =
      some (⟨vars, holding ds.toArray⟩, List.replicate ds.length none) := by
    have h := performAll_emit limit vars ds #[]
    rwa [Array.empty_append] at h
  refine ⟨⟨holding cs.toArray, performed cs vars, ?_, ?_, ?_, ?_⟩, fun b => Number.toBits_ofBits⟩
  · rw [bytes_holding, records, List.flatMap_def]
    exact congrArg (fun f => (cs.map f).flatten) (funext Command.record_eq_append)
  · exact fun c _ => newline_not_mem_bytes c.isPlain_chars c.newline_not_mem_chars
  · rw [bytes_holding, commandsOfBytes?_records]
  · intro ds vars' m rs h same
    rw [performed ds vars'] at h
    cases h
    refine records_injective ?_
    rw [← bytes_holding, ← bytes_holding]
    exact congrArg bytes same

/-- The negative zero, the least of the positive numbers, and an infinity. -/
theorem emitted_read_extremes : ∃ sink,
    performAll 0 ([.move (.ofBits 0x80000000), .rotate (.ofBits 1), .move (.ofBits 0xff800000)].map .emit)
        ⟨.empty, unbounded⟩ = some (⟨.empty, sink⟩, [none, none, none]) ∧
      bytes sink.written = bytes "M -0\nR 0.000000000000000000000000000000000000000000001\nM -inf\n" ∧
      commandsOfBytes? (bytes sink.written) =
        some [.move (.ofBits 0x80000000), .rotate (.ofBits 1), .move (.ofBits 0xff800000)] ∧
      (Float32.ofBits 0x80000000).toBits = 0x80000000 ∧ (Float32.ofBits 1).toBits = 1 := by
  obtain ⟨⟨sink, taken, written, -, read, -⟩, bits⟩ :=
    emitted_read [.move (.ofBits 0x80000000), .rotate (.ofBits 1), .move (.ofBits 0xff800000)] 0 .empty
  refine ⟨sink, taken, written.trans ?_, read, bits _ (by decide), bits _ (by decide)⟩
  decide +kernel

end TextSink

end Turtle
