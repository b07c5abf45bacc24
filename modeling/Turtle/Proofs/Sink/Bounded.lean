import Turtle.Proofs.Execution.Moments
import Turtle.Proofs.Sink.Records
import Turtle.Proofs.Sink.Session

/-!
# A text sink on a bounded store

The store takes what fits of all that is written to it, however that is cut into pieces, and refuses the
rest. So a session on it writes the front of what the same attempts would write without a bound, and a
program does on it what it does with a list of commands, up to the first record that does not fit.
-/

namespace Turtle

namespace TextSink

/-! ## Piece by piece -/

theorem write_nil (sink : TextSink) : sink.write [] = (sink, none) := by
  obtain ⟨written, room, full, jam⟩ := sink
  cases room <;> simp [write]

theorem write_append (sink : TextSink) (cs ds : List Char) :
    sink.write (cs ++ ds) =
      if (sink.write cs).2 = none then (sink.write cs).1.write ds else sink.write cs := by
  obtain ⟨written, room, full, jam⟩ := sink
  cases room with
  | none => simp [write, String.append_assoc]
  | some room =>
    by_cases h : cs.length ≤ room
    · have hd : cs.length + ds.length ≤ room ↔ ds.length ≤ room - cs.length := by omega
      simp [write, h, List.take_append, hd, Nat.sub_sub, String.append_assoc]
    · have hd : ¬cs.length + ds.length ≤ room := by omega
      have hz : room - cs.length = 0 := by omega
      have hz' : room - (cs.length + ds.length) = 0 := by omega
      simp [write, h, hd, List.take_append, hz, hz']

/-- One call of the store: it takes what fits and answers how much that was. -/
def accept (sink : TextSink) (cs : List Char) : TextSink × Nat :=
  let count := match sink.room with
    | none => cs.length
    | some room => min room cs.length
  ({ sink with written := sink.written ++ .ofList (cs.take count), room := sink.room.map (· - count) }, count)

/-- Calls the store until it has taken all of the text, or fails to take any of what is left. -/
def writeAll (sink : TextSink) (cs : List Char) : TextSink × Option String :=
  if cs = [] then (sink, none)
  else if (sink.accept cs).2 = 0 then (sink, some sink.full)
  else writeAll (sink.accept cs).1 (cs.drop (sink.accept cs).2)
termination_by cs.length
decreasing_by
  have : cs.length ≠ 0 := by simpa
  rw [List.length_drop]
  omega

def writePieces : List (List Char) → TextSink → TextSink × Option String
  | [], sink => (sink, none)
  | p :: ps, sink => if (sink.writeAll p).2 = none then writePieces ps (sink.writeAll p).1
      else sink.writeAll p

theorem write_accepted (sink : TextSink) (cs : List Char) :
    sink.write (cs.take (sink.accept cs).2) = ((sink.accept cs).1, none) := by
  obtain ⟨written, room, full, jam⟩ := sink
  cases room with
  | none => simp [write, accept]
  | some room =>
    have hfit : min room cs.length ≤ room := Nat.min_le_left ..
    have hrest : room - min room cs.length = room - cs.length := by omega
    simp [write, accept, List.take_take, hfit, hrest]

theorem writeAll_eq (sink : TextSink) (cs : List Char) : sink.writeAll cs = sink.write cs := by
  fun_induction writeAll sink cs with
  | case1 sink => exact (write_nil sink).symm
  | case2 sink cs hcs h =>
    obtain ⟨written, room, full, jam⟩ := sink
    have hpos : 0 < cs.length := List.length_pos_iff.mpr hcs
    cases room with
    | none => exact absurd h (Nat.ne_of_gt hpos)
    | some room =>
      obtain rfl : room = 0 := by
        simp only [accept] at h
        omega
      simp [write, hcs]
  | case3 sink cs hcs h ih =>
    have ht := write_accepted sink cs
    have := write_append sink (cs.take (sink.accept cs).2) (cs.drop (sink.accept cs).2)
    rw [List.take_append_drop, ht, if_pos rfl] at this
    rw [ih, this]

theorem writePieces_eq (ps : List (List Char)) (sink : TextSink) :
    writePieces ps sink = sink.write ps.flatten := by
  induction ps generalizing sink with
  | nil => exact (write_nil sink).symm
  | cons p ps ih => rw [writePieces, writeAll_eq, ih, List.flatten_cons, write_append]

/-! ## Commands behind one another -/

/-- An empty store of `L` bytes: why it refuses more, and why its buffer cannot be emptied, if it cannot. -/
def bounded (L : Nat) (full : String) (jam : Option String) : TextSink := ⟨"", some L, full, jam⟩

def behind (L : Nat) (full : String) (jam : Option String) (cs : List Command) : TextSink :=
  ⟨.ofList ((lines cs).take L), some (L - (lines cs).length), full, jam⟩

section
variable {L : Nat} {full : String} {jam : Option String}

theorem behind_nil : behind L full jam [] = bounded L full jam := by simp [behind, bounded, lines]

theorem bytes_behind (cs : List Command) : bytes (behind L full jam cs).written = (records cs).take L :=
  bytes_take_lines L cs

theorem bytes_behind_append (cs ds : List Command) :
    bytes (behind L full jam (cs ++ ds)).written =
      bytes (behind L full jam cs).written ++ (records ds).take (L - (records cs).length) := by
  rw [bytes_behind, bytes_behind, records_append, List.take_append]

theorem emit_behind (cs : List Command) (c : Command) :
    Sink.emit c (behind L full jam cs) =
      (behind L full jam (cs ++ [c]), if (records (cs ++ [c])).length ≤ L then none else some full) := by
  have hpos : 0 < c.line.length := by simp [Command.line]
  have hc : lines (cs ++ [c]) = lines cs ++ c.line := by simp [lines]
  have hfit : c.line.length ≤ L - (lines cs).length ↔ (lines cs ++ c.line).length ≤ L := by
    rw [List.length_append]
    omega
  rw [length_records, hc]
  simp [Sink.emit, write, behind, hc, hfit, List.take_append, Nat.sub_sub]

theorem written_behind_append {cs : List Command} (h : L < (records cs).length) (ds : List Command) :
    (behind L full jam (cs ++ ds)).written = (behind L full jam cs).written := by
  rw [length_records] at h
  rw [behind, behind, lines_append, List.take_append_of_le_length (Nat.le_of_lt h)]

def Fits (L : Nat) (cs ds : List Command) : Prop := (records ds).length ≤ L - (records cs).length

theorem fits_singleton {cs : List Command} {c : Command} :
    Fits L cs [c] ↔ (records (cs ++ [c])).length ≤ L := by
  have hpos : 0 < (records [c]).length := by simp [length_records, lines, Command.line]
  rw [Fits, records_append, List.length_append]
  omega

theorem fits_append {cs ds ds' : List Command} :
    Fits L cs (ds ++ ds') ↔ Fits L cs ds ∧ Fits L (cs ++ ds) ds' := by
  simp only [Fits, records_append, List.length_append]
  omega

theorem accepts_behind {cs ds : List Command} (h : Fits L cs ds) :
    Accepts (behind L full jam cs) ds (behind L full jam (cs ++ ds)) := by
  induction ds generalizing cs with
  | nil => exact (List.append_nil cs).symm ▸ .nil
  | cons d ds ih =>
    obtain ⟨hd, hds⟩ := fits_append.mp (show Fits L cs ([d] ++ ds) from h)
    have hrest := ih hds
    rw [List.append_assoc] at hrest
    refine .cons ?_ hrest
    rw [emit_behind, if_pos (fits_singleton.mp hd)]

end

/-! ## Runs into the store and into a list -/

theorem exists_first_unfit {L : Nat} {cs ds : List Command} (h : ¬Fits L cs ds) :
    ∃ us c vs, ds = us ++ c :: vs ∧ Fits L cs us ∧ ¬Fits L cs (us ++ [c]) := by
  induction ds generalizing cs with
  | nil => exact absurd (Nat.zero_le _) h
  | cons d ds ih =>
    by_cases hd : Fits L cs [d]
    · have hds : ¬Fits L (cs ++ [d]) ds := fun hds => h (fits_append.mpr ⟨hd, hds⟩)
      obtain ⟨us, c, vs, rfl, hus, hc⟩ := ih hds
      refine ⟨d :: us, c, vs, rfl, fits_append.mpr ⟨hd, hus⟩, fun hduc => hc ?_⟩
      have hall : Fits L cs ([d] ++ (us ++ [c])) := hduc
      exact (fits_append.mp hall).2
    · exact ⟨[], d, ds, rfl, Nat.zero_le _, hd⟩

section
variable {L : Nat} (full : String) (jam : Option String) {p : Program} {limit : Nat} {vars : Variables}
  {cs : List Command} {e : Ending (Array Command)} (h : p.exec limit ⟨vars, #[]⟩ = some e)
include h

theorem exec_behind_of_fits (hfit : Fits L cs e.machine.sink.toList) :
    ∃ limit', p.exec limit' ⟨vars, behind L full jam cs⟩ =
      some ⟨⟨e.machine.vars, behind L full jam (cs ++ e.machine.sink.toList)⟩, e.failure⟩ := by
  obtain ⟨ds, hsink, hrun⟩ := follows_of_execAll p.statements h
  obtain rfl : e.machine.sink.toList = ds := by simp [hsink]
  exact execAll_of_accepts (fun _ _ => rfl) hrun (accepts_behind hfit)

theorem exec_behind_of_unfit (hfit : ¬Fits L cs e.machine.sink.toList) :
    ∃ us c vs vars' limit', e.machine.sink.toList = us ++ c :: vs ∧ Fits L cs us ∧ ¬Fits L cs (us ++ [c]) ∧
      Stmt.ReachesAll p.statements vars us vars' c ∧
      p.exec limit' ⟨vars, behind L full jam cs⟩ =
        some ⟨⟨vars', behind L full jam (cs ++ us ++ [c])⟩, some (.output full)⟩ := by
  obtain ⟨ds, hsink, hrun⟩ := follows_of_execAll p.statements h
  obtain rfl : e.machine.sink.toList = ds := by simp [hsink]
  obtain ⟨us, c, vs, hds, hus, hc⟩ := exists_first_unfit hfit
  obtain ⟨vars', hr⟩ := reachesAll_of_runsAll hrun hds
  have hrefuse : Sink.emit c (behind L full jam (cs ++ us)) =
      (behind L full jam (cs ++ us ++ [c]), some full) := by
    rw [emit_behind, if_neg]
    exact fun hle => hc (fits_append.mpr ⟨hus, fits_singleton.mpr hle⟩)
  obtain ⟨limit', he⟩ := execAll_of_refused (fun _ _ => rfl) hr (accepts_behind hus) hrefuse
  exact ⟨us, c, vs, vars', limit', hds, hus, hc, hr, he⟩

end

end TextSink

/-! ## Sessions on the store -/

def attempted {σ : Type} (attempts : List (Attempt σ)) : List UInt8 := records (attempts.map Attempt.command)

namespace TextSink

/-- The store and each attempt are as if all attempts so far had been made on an empty store. -/
structure Keeps (L : Nat) (full : String) (jam : Option String) (s : Recorded TextSink) : Prop where
  sink : s.sink = behind L full jam (s.attempts.map Attempt.command)
  attempt : ∀ us a vs, s.attempts = us ++ a :: vs →
    a.sink = behind L full jam ((us ++ [a]).map Attempt.command) ∧
      a.refusal = if (attempted (us ++ [a])).length ≤ L then none else some full

section
variable {L : Nat} {full : String} {jam : Option String}

theorem Keeps.emit (c : Command) (s : Recorded TextSink) (h : Keeps L full jam s) :
    Keeps L full jam (Sink.emit c s).1 := by
  have step : Sink.emit c s.sink = (behind L full jam (s.attempts.map Attempt.command ++ [c]),
      if (records (s.attempts.map Attempt.command ++ [c])).length ≤ L then none else some full) :=
    h.sink ▸ emit_behind _ c
  rw [Recorded.emit_eq, step]
  refine ⟨by rw [List.map_append]; rfl, fun us a vs hsplit => ?_⟩
  rcases split_append hsplit with ⟨ws, hold⟩ | ⟨ws, rfl, hnew⟩
  · exact h.attempt us a ws hold
  · obtain ⟨rfl, rfl⟩ := split_singleton hnew
    simp [attempted]

theorem Keeps.refused {s : Recorded TextSink} (h : Keeps L full jam s) {us vs : List (Attempt TextSink)}
    {a : Attempt TextSink} (hs : s.attempts = us ++ a :: vs) (ha : a.refusal ≠ none) :
    a.refusal = some full ∧ ∀ b ∈ vs, b.refusal = some full ∧ b.sink.written = a.sink.written := by
  obtain ⟨hsink, hrefusal⟩ := h.attempt us a vs hs
  have hlong : L < (attempted (us ++ [a])).length :=
    Nat.lt_of_not_le fun hle => ha (hrefusal.trans (if_pos hle))
  refine ⟨hrefusal.trans (if_neg (Nat.not_le.mpr hlong)), fun b hb => ?_⟩
  obtain ⟨ws, ws', rfl⟩ := List.append_of_mem hb
  obtain ⟨hsink', hrefusal'⟩ := h.attempt (us ++ a :: ws) b ws' (by simp [hs])
  rw [show us ++ a :: ws ++ [b] = us ++ [a] ++ (ws ++ [b]) by simp] at hsink' hrefusal'
  constructor
  · rw [hrefusal', if_neg]
    rw [attempted] at hlong
    rw [attempted, List.map_append, records_append, List.length_append]
    omega
  · rw [hsink', hsink, List.map_append]
    exact written_behind_append hlong _

theorem keeps_of_performAll {vars : Variables} {limit : Nat} {qs : List Request}
    {m : Machine (Recorded TextSink)} {rs : List (Option Failure)}
    (h : performAll limit qs ⟨vars, ⟨bounded L full jam, []⟩⟩ = some (m, rs)) : Keeps L full jam m.sink :=
  invariant_of_performAll Keeps.emit (fun _ _ => id) h ⟨behind_nil.symm, by simp⟩

end

/-- What is true of a machine whose sink is on a store of `L` bytes, behind these attempts: of what was
written, of every attempt, and of what the machine does when it is asked for more. -/
structure OnStore (L : Nat) (full : String) (m : Machine TextSink) (attempts : List (Attempt TextSink)) :
    Prop where
  written : bytes m.sink.written = (attempted attempts).take L
  attempt : ∀ us a vs, attempts = us ++ a :: vs →
    bytes a.sink.written = (attempted (us ++ [a])).take L ∧
      (a.refusal = none ↔ (attempted (us ++ [a])).length ≤ L)
  refused : ∀ us a vs, attempts = us ++ a :: vs → a.refusal ≠ none →
    a.refusal = some full ∧ ∀ b ∈ vs, b.refusal = some full ∧ b.sink.written = a.sink.written
  emit : ∀ c, (m.emit c).machine.vars = m.vars ∧
    bytes (m.emit c).machine.sink.written = (attempted attempts ++ c.record).take L ∧
    (m.emit c).failure = if (attempted attempts ++ c.record).length ≤ L then none else some (.output full)
  pieces : ∀ c ps, List.flatten ps = Command.line c → m.sink.writePieces ps = Sink.emit c m.sink
  run : ∀ p limit e, Program.exec limit p ⟨m.vars, (⟨m.sink, attempts⟩ : Recorded TextSink)⟩ = some e →
    ∃ new, e.machine.sink.attempts = attempts ++ new ∧ Recorded.Adds new e.failure
  /-- A program whose records fit ends as it does into a list. -/
  fits : ∀ p limit e, Program.exec limit p ⟨m.vars, (#[] : Array Command)⟩ = some e →
    (records e.machine.sink.toList).length ≤ L - (attempted attempts).length →
    ∃ limit' sink, p.exec limit' m = some ⟨⟨e.machine.vars, sink⟩, e.failure⟩ ∧
      bytes sink.written = bytes m.sink.written ++ records e.machine.sink.toList
  /-- Any other ends at its first record that does not fit, with the variables that it had then. -/
  stops : ∀ p limit e, Program.exec limit p ⟨m.vars, (#[] : Array Command)⟩ = some e →
    L - (attempted attempts).length < (records e.machine.sink.toList).length →
    ∃ us c vs vars' limit' sink, e.machine.sink.toList = us ++ c :: vs ∧
      (records us).length ≤ L - (attempted attempts).length ∧
      L - (attempted attempts).length < (records (us ++ [c])).length ∧
      Stmt.ReachesAll p.statements m.vars us vars' c ∧
      p.exec limit' m = some ⟨⟨vars', sink⟩, some (.output full)⟩ ∧
      bytes sink.written =
        bytes m.sink.written ++ (records e.machine.sink.toList).take (L - (attempted attempts).length)

theorem onStore_of_keeps {L : Nat} {full : String} {jam : Option String} (vars : Variables)
    {attempts : List (Attempt TextSink)}
    (h : Keeps L full jam ⟨behind L full jam (attempts.map Attempt.command), attempts⟩) :
    OnStore L full ⟨vars, behind L full jam (attempts.map Attempt.command)⟩ attempts where
  written := bytes_behind _
  attempt us a vs hs := by
    obtain ⟨hsink, hrefusal⟩ := h.attempt us a vs hs
    refine ⟨by rw [hsink, bytes_behind]; rfl, ?_⟩
    rw [hrefusal]
    split <;> simp [*]
  refused us a vs hs ha := h.refused hs ha
  emit c := by
    have hc : records [c] = c.record := List.append_nil _
    simp only [Machine.emit, emit_behind, bytes_behind, records_append, hc]
    refine ⟨trivial, rfl, ?_⟩
    rw [apply_ite (Option.map Failure.output)]
    rfl
  pieces c ps hps := by rw [writePieces_eq, hps]; rfl
  run p limit e he := Recorded.exec he
  fits p limit e he hfit := by
    obtain ⟨limit', he'⟩ := exec_behind_of_fits full jam he hfit
    rw [attempted] at hfit
    exact ⟨limit', _, he', by rw [bytes_behind_append, List.take_of_length_le hfit]⟩
  stops p limit e he hfit := by
    obtain ⟨us, c, vs, vars', limit', hds, hus, hc, hr, he'⟩ :=
      exec_behind_of_unfit full jam he (Nat.not_le.mpr hfit)
    have hlt := Nat.lt_of_not_le hc
    refine ⟨us, c, vs, vars', limit', _, hds, hus, hlt, hr, he', ?_⟩
    -- what the run would go on to write lies behind the first `L` bytes
    rw [attempted, List.append_assoc, bytes_behind_append, hds, List.append_cons us c vs, records_append _ vs,
      List.take_append_of_le_length (Nat.le_of_lt hlt)]

/-- A session on a store of `L` bytes has made some attempts: they are on the record of the same session
on a sink that keeps one. What it goes on with, it does as if it had never flushed, whether flushing
fails or not. -/
theorem session_bounded {L : Nat} {full : String} {jam : Option String} {vars : Variables} {limit : Nat}
    {qs : List Request} {m : Machine TextSink} {rs : List (Option Failure)}
    (h : performAll limit qs ⟨vars, bounded L full jam⟩ = some (m, rs)) :
    (∃ attempts,
      performAll limit qs ⟨vars, (⟨bounded L full jam, []⟩ : Recorded TextSink)⟩ =
          some (⟨m.vars, ⟨m.sink, attempts⟩⟩, rs) ∧
        OnStore L full m attempts) ∧
    ∀ qs',
      performAll limit (qs ++ qs') ⟨vars, bounded L full jam⟩ =
        (performAll limit qs' m).map (fun (m', rs') => (m', rs ++ rs')) ∧
      performAll limit (qs ++ .flush :: qs') ⟨vars, bounded L full jam⟩ =
        (performAll limit qs' m).map (fun (m', rs') => (m', rs ++ jam.map .output :: rs')) := by
  obtain ⟨attempts, hrecorded⟩ := performAll_recorded h
  have keeps := keeps_of_performAll hrecorded
  have hsink : m.sink = behind L full jam (attempts.map Attempt.command) := keeps.sink
  have hjam : Buffered.flush m.sink = jam := congrArg TextSink.jam hsink
  obtain ⟨vars', sink⟩ := m
  subst hsink
  refine ⟨⟨attempts, hrecorded, onStore_of_keeps vars' keeps⟩, fun qs' => ⟨performAll_append qs' h, ?_⟩⟩
  rw [performAll_append _ h, performAll, Request.perform, hjam, Option.map_map]
  rfl

/-- Three bytes hold the first of two records and half of the second, in spite of a flush that fails
between them. The assignment behind the second record is not made, and a third record is refused whole. -/
theorem session_bounded_half :
    ∃ m attempts, performAll 0
        [.emit .penDown, .flush, .run ⟨[.action .home, .assign "x" (.constant .one)]⟩, .emit .penUp]
        ⟨.empty, bounded 3 "pipe closed" (some "flush refused")⟩ =
      some (m, [none, some (.output "flush refused"), some (.output "pipe closed"),
        some (.output "pipe closed")]) ∧
      m.vars.lookup "x" = none ∧ attempts.map Attempt.command = [.penDown, .home, .penUp] ∧
      OnStore 3 "pipe closed" m attempts := by
  obtain ⟨⟨attempts, hrecorded, hstore⟩, -⟩ :=
    @session_bounded 3 "pipe closed" (some "flush refused") .empty 0
    [.emit .penDown, .flush, .run ⟨[.action .home, .assign "x" (.constant .one)]⟩, .emit .penUp] _ _ rfl
  refine ⟨_, attempts, rfl, rfl, ?_, hstore⟩
  cases hrecorded
  rfl

end TextSink

end Turtle
