import Turtle.Proofs.Grammar.FirstFault
import Turtle.Proofs.Lexing.Requests
import Turtle.Proofs.Program.Composition

/-!
# The line of a fault

A refusal tells the first answer that no program has there, and the line on which that answer begins.
What was asked for behind it, if anything was, has not moved the line that is told.
-/

namespace Turtle

def SyntaxError.Cause.found : Cause → Except String Token
  | .unexpectedToken t _ | .unrecognizedConstruct t _ => .ok t
  | .invalidCharacter slice => .error slice

namespace Program

theorem found_of_reported {as : List (Except String Token)} {r : Reading} {e : SyntaxError}
    (h : Reported as r e) :
    e.cause.found = r.answer ∧ e.line = r.line := by
  cases h <;> exact ⟨rfl, rfl⟩

theorem exists_fault {source : String} {e : SyntaxError} (h : ofSource source = .error e) :
    ∃ k, Faulty (readings source) k ∧ (∀ j < k, ¬ Faulty (readings source) j) ∧
      e.cause.found = (Lexer.answered source k).answer ∧ e.line = (Lexer.answered source k).line := by
  obtain ⟨n, -, before, ends, answers⟩ := Lexer.exists_first_eot source
  have reading {i : Nat} (hi : i ≤ n) : (readings source)[i]? = some (Lexer.answered source i) := by
    rw [answers, List.getElem?_map, List.getElem?_range (Nat.lt_succ_of_le hi)]
    rfl
  have hn : (readings source)[n]?.map Reading.answer = some (.ok .eot) := by
    rw [reading (Nat.le_refl n), Option.map_some, ends]
  have hfirst : ∀ i < n, (readings source)[i]?.map Reading.answer ≠ some (.ok .eot) := by
    intro i hi he
    rw [reading (Nat.le_of_lt hi)] at he
    exact before i hi (Option.some.inj he)
  rw [ofSource, ofReadings_eq_error_iff] at h
  have faulty : Faulty (readings source) n := by
    by_contra hv
    obtain ⟨r, p, -, hread⟩ := read_of_viable hn (not_faulty_iff.mp hv)
    have all := hread []
    rw [List.append_nil, List.take_of_length_le (by simp [answers]), h] at all
    cases all
  classical
  have some : ∃ k, Faulty (readings source) k := ⟨n, faulty⟩
  have least := Nat.find_le (h := some) faulty
  obtain ⟨r, e', hr, reported, hread, -⟩ := read_of_first_fault hn hfirst least (Nat.find_spec some)
    fun j hj => Nat.find_min some hj
  obtain rfl := Except.error.inj (h.symm.trans hread)
  obtain rfl := Option.some.inj ((reading least).symm.trans hr)
  obtain ⟨found, line⟩ := found_of_reported reported
  exact ⟨Nat.find some, Nat.find_spec some, fun j hj => Nat.find_min some hj, found, line⟩

/-- At every moment the lexemes behind a source are its text up to there, their answers are those that
were given and the line is the one that this text ends on. After no more answers than the source has
characters it answers the end of the text, on its last line, and again whenever it is asked. A source
that is no program is refused on the line on which the first fault begins, or on the last line if its
end is the fault. -/
theorem requests_in_step (source : String) :
    (∀ n, ∃ passed, Lexer.Passed source n passed) ∧
    (∃ k ≤ source.length, (∀ n < k, (Lexer.answered source n).answer ≠ .ok .eot) ∧
      (∀ n, k ≤ n → Lexer.answered source n = ⟨1 + source.toList.count '\n', .ok .eot⟩ ∧
        (Lexer.after source (n + 1)).line = 1 + source.toList.count '\n') ∧
      readings source = (List.range (k + 1)).map (Lexer.answered source)) ∧
    ∀ e, ofSource source = .error e →
      ∃ k, Faulty (readings source) k ∧ (∀ j < k, ¬ Faulty (readings source) j) ∧
        ((∃ us l vs, lexemes source.toList = us ++ l :: vs ∧
            us.filterMap Lexeme.answer? = (List.range k).map (fun i => (Lexer.answered source i).answer) ∧
            l.answer? = some e.cause.found ∧ e.line = 1 + (us.flatMap Lexeme.text).count '\n') ∨
          e.cause.found = .ok .eot ∧ e.line = 1 + source.toList.count '\n') := by
  refine ⟨Lexer.exists_passed source, ?_, fun e he => ?_⟩
  · obtain ⟨k, hk, before, ends, answers⟩ := Lexer.exists_first_eot source
    refine ⟨k, hk, before, fun n hn => ?_, answers⟩
    have last := Lexer.answered_of_eot ends hn
    exact ⟨last, by rw [← Lexer.line_answered, last]⟩
  · obtain ⟨k, faulty, first, found, line⟩ := exists_fault he
    refine ⟨k, faulty, first, ?_⟩
    rcases Lexer.answered_cases source k with ⟨us, l, vs, cut, behind, hl, begins⟩ | last
    · exact .inl ⟨us, l, vs, cut, behind, found ▸ hl, line.trans begins⟩
    · rw [last] at found line
      exact .inr ⟨found, line⟩

/-- A comment that is never closed is refused at its slash, and the line ends behind that are not counted. -/
theorem requests_in_step_comment :
    ofSource "/*\n" = .error ⟨1, .unrecognizedConstruct (.symbol .slash) .statement⟩ ∧
    ∃ us l vs, lexemes "/*\n".toList = us ++ l :: vs ∧ l.answer? = some (.ok (.symbol .slash)) ∧
      1 = 1 + (us.flatMap Lexeme.text).count '\n' := by
  have unclosed : Lexeme.splitClose ['\n'] = none := rfl
  have lexed : lexemes "/*\n".toList = _ :=
    (lexemes_scan (Lexeme.scan_open unclosed)).trans (by rw [lexemes_scan (Lexeme.scan_star ['\n'])])
  have refused : ofSource "/*\n" = .error ⟨1, .unrecognizedConstruct (.symbol .slash) .statement⟩ := by
    rw [ofSource, readings, lexed]
    have line : lexemes ['\n'] = [⟨some (.filler .newline), ['\n']⟩] := by
      rw [lexemes_scan (r := []) rfl, lexemes]
    rw [line]
    rfl
  obtain ⟨k, -, -, ⟨us, l, vs, cut, -, found, line⟩ | ⟨found, -⟩⟩ := (requests_in_step "/*\n").2.2 _ refused
  · exact ⟨refused, us, l, vs, cut, found, line⟩
  · cases found

end Program

end Turtle
