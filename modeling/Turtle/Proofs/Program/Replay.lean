import Turtle.Compilation
import Turtle.Proofs.Number.Negation
import Turtle.Proofs.Program.Composition
import Turtle.Proofs.Sink.Text

/-!
# Records as programs

What a run has written can be run again. A record stands for a statement that emits the command of the
record, also where its number is negative: then a sign is read before a literal, and the negation of the
literal is that number.
-/

namespace Turtle

open Grammar

def Command.isFinite : Command → Bool
  | .move v | .rotate v => Float32.isFinite v
  | _ => true

def statementOf : List Char → List Char
  | ['H'] => "HOME".toList
  | ['U'] => "PENUP".toList
  | ['D'] => "PENDOWN".toList
  | ['['] => "PUSHSTATE".toList
  | [']'] => "POPSTATE".toList
  | 'M' :: ' ' :: number => "FORWARD".toList ++ ' ' :: number
  | 'R' :: ' ' :: number => "LEFT".toList ++ ' ' :: number
  | record => record

/-- A statement for each line of a text of records. -/
def replay (output : List Char) : List Char := ['\n'].intercalate ((output.splitOn '\n').map statementOf)

/-! ## One command -/

namespace Number

theorem exists_phrase {v : Number} (h : Float32.isFinite v = true) :
    ∃ ts e, Spells v.chars ts ∧ Phrase .expr ts e ∧ ∀ vars, e.eval vars = .ok v := by
  obtain ⟨m, negative, hm, rfl⟩ := exists_magnitude h
  cases negative with
  | false => exact ⟨_, _, .finite hm, .operand rfl (.operand rfl .number), fun _ => rfl⟩
  | true =>
    rw [chars_negative]
    exact ⟨_, _, (Spells.finite hm).minus, .operand rfl (.operand rfl (.minus .number)),
      fun _ => congrArg Except.ok (m.neg_toNumber false)⟩

end Number

theorem exec_motion {σ : Type} [Sink σ] {k : Motion} {e : Expr} {v : Number} {m : Machine σ}
    (h : e.eval m.vars = .ok v) (limit : Nat) :
    (Stmt.motion k e).exec limit m = some (m.emit (k.command v)) := by
  rw [Stmt.exec, h]

theorem Command.exists_statement {c : Command} (h : c.isFinite = true) :
    ∃ ts s, Spells (statementOf c.chars) ts ∧ Statement ts s ∧
      ∀ {σ : Type} [Sink σ] (limit : Nat) (m : Machine σ), s.exec limit m = some (m.emit c) := by
  cases c with
  | home => exact ⟨_, _, .keyword .home, .action (a := .home), fun _ _ => rfl⟩
  | penUp => exact ⟨_, _, .keyword .penUp, .action (a := .penUp), fun _ _ => rfl⟩
  | penDown => exact ⟨_, _, .keyword .penDown, .action (a := .penDown), fun _ _ => rfl⟩
  | pushState => exact ⟨_, _, .keyword .pushState, .action (a := .pushState), fun _ _ => rfl⟩
  | popState => exact ⟨_, _, .keyword .popState, .action (a := .popState), fun _ _ => rfl⟩
  | move v =>
    obtain ⟨ts, e, spells, phrase, value⟩ := Number.exists_phrase h
    exact ⟨_, _, (Spells.keyword .forward).blank spells, .motion (m := .forward) phrase,
      fun limit m => exec_motion (value m.vars) limit⟩
  | rotate v =>
    obtain ⟨ts, e, spells, phrase, value⟩ := Number.exists_phrase h
    exact ⟨_, _, (Spells.keyword .left).blank spells, .motion (m := .left) phrase,
      fun limit m => exec_motion (value m.vars) limit⟩

/-! ## Many commands -/

section
variable {cs : List Command} (h : ∀ c ∈ cs, c.isFinite = true)
include h

theorem exists_series_of_finite : ∃ tss ss, List.Forall₂ Spells (cs.map fun c => statementOf c.chars) tss ∧
    Rest tss.flatten ss ∧ ∀ limit vars sink log, ∃ log',
      Stmt.execAll limit ss ⟨vars, (⟨sink, log⟩ : Logged (Array Command))⟩ =
        some ⟨⟨vars, ⟨sink ++ cs.toArray, log'⟩⟩, none⟩ := by
  induction cs with
  | nil => exact ⟨[], [], .nil, .inl ⟨rfl, rfl⟩,
      fun _ _ _ log => ⟨log, by simp [Stmt.execAll, Machine.succeed]⟩⟩
  | cons c cs ih =>
    obtain ⟨hc, hcs⟩ := List.forall_mem_cons.mp h
    obtain ⟨ts, s, spells, statement, exec⟩ := Command.exists_statement hc
    obtain ⟨tss, ss, spellsAll, series, execAll⟩ := ih hcs
    refine ⟨ts :: tss, s :: ss, .cons spells spellsAll, .inr (statements_of_rest statement series), ?_⟩
    intro limit vars sink log
    obtain ⟨log', rest⟩ := execAll limit vars (sink.push c) (log.push ⟨.trace, "emit " ++ c.text⟩)
    refine ⟨log', ?_⟩
    rw [List.toArray_cons, ← Array.append_assoc, ← Array.push_eq_append, Stmt.execAll, exec]
    exact rest

theorem compile_of_finite {source : String} {ending : List Char} (hending : ending ∈ [[], ['\n']])
    (hs : source.toList = ['\n'].intercalate (cs.map fun c => statementOf c.chars) ++ ending) (limit : Nat)
    (vars : Variables) : ∃ log, compile limit source vars = some ⟨.ok cs.toArray, vars, log⟩ := by
  obtain ⟨tss, ss, spellsAll, series, execAll⟩ := exists_series_of_finite h
  have spells := Spells.joined (.inr rfl) spellsAll
  have answers : answersOf source.toList = tss.flatten.map .ok := by
    simp only [List.mem_cons, List.not_mem_nil, or_false] at hending
    rw [hs]
    rcases hending with rfl | rfl
    · rw [spells [] (by simp [Bounded]), answersOf_nil, List.append_nil]
    · rw [spells ['\n'] (.cons (.inr (.inr rfl)) _), Lexeme.answersOf_newline, answersOf_nil, List.append_nil]
  have parsed : Program.ofSource source = .ok (Program.ofSeries ss) :=
    (Program.ofSource_eq_ok_iff answers).mpr (Program.derives_ofSeries series)
  obtain ⟨log, run⟩ := execAll limit vars #[] #[Compilation.parsedLine (Program.ofSeries ss)]
  rw [Array.empty_append, ← Program.exec_ofSeries] at run
  rw [compile, parsed]
  dsimp only
  rw [run]
  exact ⟨_, rfl⟩

end

/-! ## What a run has written -/

theorem exists_replay_lines (cs : List Command) : ∃ ending ∈ [[], ['\n']],
    replay (lines cs) = ['\n'].intercalate (cs.map fun c => statementOf c.chars) ++ ending := by
  have joined (l : List Char) (ls : List (List Char)) :
      ['\n'].intercalate (l :: ls ++ [[]]) = ['\n'].intercalate (l :: ls) ++ ['\n'] := by
    induction ls generalizing l with
    | nil => simp
    | cons l' ls ih => simpa using ih l'
  rw [replay, splitOn_lines, List.map_append, List.map_map]
  cases cs with
  | nil => exact ⟨[], by simp, rfl⟩
  | cons c cs => exact ⟨['\n'], by simp, joined _ _⟩

/-- Commands with finite numbers come back, bit for bit, from the program that their records are when
each stands for its statement, one per line, with whatever variables it is run. So they do from the text
that a run has written. -/
theorem compile_replay {cs : List Command} (h : ∀ c ∈ cs, c.isFinite = true) (limit : Nat)
    (vars : Variables) :
    (∀ ending ∈ [[], ['\n']], ∃ log,
      compile limit (.ofList (['\n'].intercalate (cs.map fun c => statementOf c.chars) ++ ending)) vars =
        some ⟨.ok cs.toArray, vars, log⟩) ∧
    ∀ (p : Program) (limit₀ : Nat) (vars₀ vars₁ : Variables) (r : Option Failure),
      p.exec limit₀ ⟨vars₀, #[]⟩ = some ⟨⟨vars₁, cs.toArray⟩, r⟩ →
        ∃ sink, p.exec limit₀ ⟨vars₀, TextSink.unbounded⟩ = some ⟨⟨vars₁, sink⟩, r⟩ ∧
          ∃ log, compile limit (.ofList (replay sink.written.toList)) vars =
            some ⟨.ok cs.toArray, vars, log⟩ := by
  constructor
  · intro ending hending
    exact compile_of_finite h hending String.toList_ofList limit vars
  · intro p limit₀ vars₀ vars₁ r run
    refine ⟨TextSink.holding cs.toArray, by rw [p.exec_unbounded, run]; rfl, ?_⟩
    obtain ⟨ending, hending, written⟩ := exists_replay_lines cs
    refine compile_of_finite h hending ?_ limit vars
    rw [String.toList_ofList, TextSink.holding, String.toList_ofList]
    exact written

/-- The sign of a zero is read as a sign. -/
theorem compile_replay_zero : ∃ log, compile 0 "PENDOWN\nLEFT -0" .empty =
    some ⟨.ok #[.penDown, .rotate (.ofBits 0x80000000)], .empty, log⟩ := by
  have finite : ∀ c ∈ [Command.penDown, .rotate (.ofBits 0x80000000)], c.isFinite = true := by decide
  have chars : Number.chars (.ofBits 0x80000000) = ['-', '0'] := by decide +kernel
  obtain ⟨log, run⟩ := (compile_replay finite 0 .empty).1 [] (by simp)
  refine ⟨log, ?_⟩
  rw [← run]
  simp only [List.map_cons, List.map_nil, Command.chars, chars]
  rfl

end Turtle
