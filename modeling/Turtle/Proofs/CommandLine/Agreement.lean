import Mathlib.Data.List.Induction
import Turtle.Proofs.CommandLine.Words
import Turtle.Proofs.Sink.Text

/-!
# One run, told in three ways

A program that is run into a list, compiled or run from the command line does the same: one run, of
which each tells its part.
-/

namespace Turtle

def Ending.result (e : Ending (Array Command)) : Except CompileError (Array Command) :=
  match e.failure with
  | none => .ok e.machine.sink
  | some f => .error (.failed f)

theorem compile_eq (limit : Nat) (source : String) (vars : Variables) :
    (compile limit source vars).map (fun c => (c.result, c.vars)) =
      match Program.ofSource source with
      | .error e => some (.error (.refused e), vars)
      | .ok p => (p.exec limit ⟨vars, #[]⟩).map fun e => (e.result, e.machine.vars) := by
  rw [compile]
  cases Program.ofSource source with
  | error e => rfl
  | ok p =>
    dsimp only
    rw [Logged.exec_sink p limit vars ⟨#[], #[Compilation.parsedLine p]⟩]
    rcases p.exec limit ⟨vars, (⟨#[], #[Compilation.parsedLine p]⟩ : Logged (Array Command))⟩
      with _ | ⟨_, _ | _⟩ <;> rfl

theorem Bindings.lookup_ofList (es : List (String × Number)) (x : String) :
    (ofList es).lookup x = es.reverse.lookup x := by
  induction es using List.reverseRecOn with
  | nil => rfl
  | append_singleton es e ih =>
    rw [List.reverse_append, List.reverse_singleton, List.singleton_append, lookup_entry, ← ih, ofList,
      List.foldl_append]
    exact lookup_insert _ _ _ _

namespace CommandLine

/-- The outcome reports a run: the records of all commands, a failure by its message behind the log, and
whether there was one. Unless more is asked for, the log is empty. -/
structure Outcome.Reports (o : Outcome) (i : Invocation) (e : Ending (Array Command)) : Prop where
  status : o.status = if e.failure = none then 0 else 1
  stdout : o.stdout = .ofList (lines e.machine.sink.toList)
  stderr : ∃ log, o.stderr = log ++ e.failure.toList.map Failure.message ∧ (i.verbosity = 0 → log = [])

theorem Outcome.Reports.quiet {o : Outcome} {i : Invocation} {e : Ending (Array Command)} (h : o.Reports i e)
    (hv : i.verbosity = 0) : o = ⟨if e.failure = none then 0 else 1, .ofList (lines e.machine.sink.toList),
      e.failure.toList.map Failure.message⟩ := by
  obtain ⟨status, stdout, log, stderr, none⟩ := h
  rw [none hv] at stderr
  rw [← status, ← stdout, ← List.nil_append (e.failure.toList.map _), ← stderr]

namespace Invocation

variable {limit : Nat} {i : Invocation} {p : Program}

/-- No line that starts a log is a warning, and a run adds none. -/
theorem shown_eq_nil {e : Ending (Logged OutputBuffer)} (h : i.exec limit p = some e) (hv : i.verbosity = 0) :
    i.shown e.machine.sink.log.toList = [] := by
  have hidden : ∀ line ∈ e.machine.sink.log, line.level ≠ .warn := by
    intro line hl
    rcases Logged.tracks_trace.execAll p.statements h line hl with hs | ht
    · rcases List.mem_cons.mp (List.mem_toArray.mp hs) with rfl | hs
      · nofun
      · obtain ⟨d, -, rfl⟩ := List.mem_map.mp hs
        nofun
    · rw [ht]
      nofun
  rw [shown, LogLine.upTo, List.filter_eq_nil_iff.mpr, List.map_nil]
  intro line hl
  have := hidden line (Array.mem_toList_iff.mp hl)
  rw [hv]
  revert this
  cases line.level <;> simp [levelOf, Level.rank]

theorem outcome_eq (e : Ending (Logged OutputBuffer)) : i.outcome e =
    ⟨if e.failure = none then 0 else 1, e.machine.sink.sink.flush.delivered,
      i.shown e.machine.sink.log.toList ++ e.failure.toList.map Failure.message⟩ := by
  rw [outcome]
  cases e.failure with
  | none => rw [Option.toList_none, List.map_nil, List.append_nil, if_pos rfl]
  | some f => rfl

theorem reports_outcome {e : Ending (Logged OutputBuffer)} (h : i.exec limit p = some e)
    {d : Ending (Array Command)} (hd : e.map (fun l => l.sink.taken) = d.map TextSink.holding) :
    (i.outcome e).Reports i d := by
  have failure : e.failure = d.failure := congrArg Ending.failure hd
  have text : e.machine.sink.sink.flush.delivered = .ofList (lines d.machine.sink.toList) :=
    congrArg (fun e => e.machine.sink.written) hd
  rw [outcome_eq, failure, text]
  exact ⟨rfl, rfl, _, rfl, shown_eq_nil h⟩

theorem runSource_eq (limit : Nat) (ha : i.ast = false) (source : String) :
    match Program.ofSource source with
    | .error e => i.runSource limit source = some ⟨1, "", [e.message]⟩
    | .ok p =>
      match p.exec limit ⟨i.startVariables, #[]⟩ with
      | none => i.runSource limit source = none
      | some d => ∃ o, i.runSource limit source = some o ∧ o.Reports i d := by
  rw [runSource]
  cases Program.ofSource source with
  | error e => rfl
  | ok p =>
    have run : (i.exec limit p).map (Ending.map fun l => l.sink.taken) =
        (p.exec limit ⟨i.startVariables, #[]⟩).map (Ending.map TextSink.holding) := by
      have logged := Logged.exec_sink p limit i.startVariables
        ⟨OutputBuffer.empty, (Compilation.parsedLine p :: i.definitions.map definitionLine).toArray⟩
      dsimp only at logged
      rw [← OutputBuffer.exec_taken, logged, Option.map_map]
      rfl
    dsimp only
    rw [ha, if_neg Bool.false_ne_true]
    cases hd : p.exec limit ⟨i.startVariables, (#[] : Array Command)⟩ with
    | none =>
      rw [hd] at run
      rw [Option.map_eq_none_iff.mp run]
      rfl
    | some d =>
      rw [hd] at run
      obtain ⟨e, he, hmap⟩ := Option.map_eq_some_iff.mp run
      exact ⟨i.outcome e, by rw [he]; rfl, reports_outcome he hmap⟩

def entries (i : Invocation) : List (String × Number) := i.definitions.map fun d => (d.name, d.value)

theorem startVariables_eq (i : Invocation) :
    i.startVariables = ⟨.ofList i.entries, if i.lenient then .default .zero else .reject⟩ := by
  have puts : ∀ (ds : List Definition) (vars : Variables),
      ds.foldl (fun vars d => vars.put d.name d.value) vars =
      ⟨(ds.map fun d => (d.name, d.value)).foldl (fun b e => b.insert e.1 e.2) vars.bindings,
        vars.policy⟩ := by
    intro ds
    induction ds with
    | nil => exact fun vars => rfl
    | cons d ds ih => exact fun vars => ih _
  exact puts _ _

def Reads (i : Invocation) (files : String → Option String) (source : String) : Prop :=
  if i.file then files i.program = some source else i.program = source

theorem run_of_reads {files : String → Option String} {words : List String} {source : String}
    (hw : Request.ofWords words = .ok (.run i)) (hr : i.Reads files source) :
    run limit files words = i.runSource limit source := by
  rw [run, hw]
  dsimp only
  by_cases hf : i.file = true
  · rw [Reads, if_pos hf] at hr
    rw [if_pos hf, hr]
  · rw [Reads, if_neg hf] at hr
    rw [if_neg hf, hr]

end Invocation

/-- One source in three ways: run into a list, compiled, run from the command line. If it is refused, the
other two give this error and nothing else. If not, there is the run into the list: a compilation gives
its commands or its failure, and its variables, and the command line writes its commands, its failure and
its status. Any words may ask for this; for every list of definitions, with and without a default for
names that are not bound, some words do, and of several definitions of one name the last one counts. -/
theorem run_agrees (limit : Nat) (source : String) :
    (∀ vars : Variables, (compile limit source vars).map (fun c => (c.result, c.vars)) =
      match Program.ofSource source with
      | .error e => some (.error (.refused e), vars)
      | .ok p => (p.exec limit ⟨vars, #[]⟩).map fun e => (e.result, e.machine.vars)) ∧
    (∀ files words i, Request.ofWords words = .ok (.run i) → i.Reads files source → i.ast = false →
      match Program.ofSource source with
      | .error e => run limit files words = some ⟨1, "", [e.message]⟩
      | .ok p =>
        match p.exec limit ⟨i.startVariables, #[]⟩ with
        | none => run limit files words = none
        | some e => ∃ o, run limit files words = some o ∧ o.Reports i e) ∧
    (∀ flags ds ws program last, Options flags ds ws → Last program last → Request.ofWords (ws ++ last) =
      .ok (.run ⟨.file ∈ flags, .lenient ∈ flags, .ast ∈ flags, flags.count .verbose, ds, program⟩)) ∧
    (∀ file lenient ds program, (∀ d ∈ ds, d.IsProper) →
      ∃ words, Request.ofWords words = .ok (.run ⟨file, lenient, false, 0, ds, program⟩)) ∧
    ∀ i : Invocation, i.startVariables = ⟨.ofList i.entries, if i.lenient then .default .zero else .reject⟩ ∧
      ∀ x, i.startVariables.lookup x = i.entries.reverse.lookup x := by
  refine ⟨fun vars => compile_eq limit source vars, fun files words i hw hr ha => ?_,
    fun flags ds ws program last h hl => ofWords_options h hl,
    fun file lenient ds program h => exists_words file lenient program h,
    fun i => ⟨i.startVariables_eq, fun x => ?_⟩⟩
  · rw [Invocation.run_of_reads hw hr]
    exact Invocation.runSource_eq limit ha source
  · rw [Invocation.startVariables_eq]
    exact Bindings.lookup_ofList _ x

/-- Of two definitions the second one counts, and the command before the failure is written. -/
theorem run_agrees_unbound : run 10 (fun _ => none) ["-D", "n=1", "-Dn=2", "LEFT n LEFT m"] =
    some ⟨1, "R 2\n", ["Runtime error: Unknown variable 'm'."]⟩ := by
  let i : Invocation := ⟨false, false, false, 0, [⟨"n", .one⟩, ⟨"n", .ofBits 0x40000000⟩], "LEFT n LEFT m"⟩
  let p : Program := ⟨[.block [.motion .left (.variable "n"), .motion .left (.variable "m")]]⟩
  have parsed : Program.ofSource "LEFT n LEFT m" = .ok p := by
    have lexed : lexemes "LEFT n LEFT m".toList = _ :=
      lexemes_of_scan rfl <| lexemes_of_scan rfl <| lexemes_of_scan rfl <| lexemes_of_scan rfl <|
        lexemes_of_scan rfl <| lexemes_of_scan rfl <| lexemes_of_scan rfl lexemes.eq_1
    rw [Program.ofSource, readings, lexed]
    rfl
  have ran : p.exec 10 ⟨i.startVariables, (#[] : Array Command)⟩ =
      some ⟨⟨i.startVariables, #[.rotate (.ofBits 0x40000000)]⟩, some (.unknownVariable "m")⟩ := rfl
  have written : lines [.rotate (.ofBits 0x40000000)] = ['R', ' ', '2', '\n'] := by
    have two : Number.chars (.ofBits 0x40000000) = ['2'] := by decide +kernel
    simp only [lines, List.flatMap_cons, List.flatMap_nil, Command.line, Command.chars, two]
    rfl
  have told := (run_agrees 10 "LEFT n LEFT m").2.1 (fun _ => none)
    ["-D", "n=1", "-Dn=2", "LEFT n LEFT m"] i rfl rfl rfl
  simp only [parsed, ran] at told
  obtain ⟨o, outcome, reports⟩ := told
  rw [outcome, reports.quiet rfl, written]
  rfl

end CommandLine

end Turtle
