import Turtle.Proofs.Execution.BigStep
import Turtle.Proofs.Grammar.FirstFault
import Turtle.Proofs.Grammar.Neighbours
import Turtle.Proofs.Lexing.LineBreak
import Turtle.Proofs.Program.RoundTrip

/-!
# Sources behind one another

Two programs on lines behind one another are one program that does first what the first does and then
what the second does. If the second is none but begins like one then the fault is found where it was, on
the line that it now has.
-/

namespace Turtle

open Grammar

/-! ## A program as a series of statements -/

namespace Program

/-- The program that is a series of statements: one block of them, or nothing if there are none. -/
def ofSeries : List Stmt → Program
  | [] => ⟨[]⟩
  | s :: ss => ⟨[.block (s :: ss)]⟩

theorem ofSeries_of_statements {w : List Token} {ss : List Stmt} (h : Statements w ss) :
    ofSeries ss = ⟨[.block ss]⟩ := by
  cases h <;> rfl

theorem derives_ofSeries {w : List Token} {ss : List Stmt} (h : Rest w ss) : Derives w (ofSeries ss) := by
  rcases h with ⟨rfl, rfl⟩ | h
  · exact .none
  · exact ofSeries_of_statements h ▸ derives_block (.block h)

/-- A program that can be read is a series, for it has one block at most. -/
theorem exists_series {w : List Token} {p : Program} (h : Derives w p) :
    ∃ ss, Rest w ss ∧ p = ofSeries ss := by
  obtain ⟨ss⟩ := p
  rcases block_of_blocks h with ⟨rfl, rfl⟩ | ⟨s, hs, rfl⟩
  · exact ⟨[], .inl ⟨rfl, rfl⟩, rfl⟩
  · cases hs with
    | @block _ ss hs => exact ⟨ss, .inr hs, (ofSeries_of_statements hs).symm⟩

end Program

/-! ## Runs of the two -/

namespace Program

theorem exec_ofSeries {σ : Type} [Sink σ] (ss : List Stmt) (limit : Nat) (m : Machine σ) :
    (ofSeries ss).exec limit m = Stmt.execAll limit ss m := by
  cases ss with
  | nil => rfl
  | cons s ss =>
    rw [exec, ofSeries, Stmt.execAll, Stmt.exec]
    rcases Stmt.execAll limit (s :: ss) m with _ | ⟨_, _ | _⟩ <;> rfl

/-- From `vars` the program can be run to its end, which is `r` in `vars'`, and emits `cs`. -/
def Ends (p : Program) (vars : Variables) (r : Option Failure) (vars' : Variables) (cs : List Command) :
    Prop :=
  ∃ limit, p.exec limit ⟨vars, #[]⟩ = some ⟨⟨vars', cs.toArray⟩, r⟩

variable {vars vars' : Variables} {r : Option Failure} {cs : List Command}

theorem ends_iff {p : Program} : p.Ends vars r vars' cs ↔ Stmt.RunsAll p.statements vars r vars' cs := by
  refine execAll_iff_runsAll.trans ⟨?_, fun hrun => ⟨cs, by simp, hrun⟩⟩
  rintro ⟨ds, hsink, hrun⟩
  obtain rfl : cs = ds := by simpa using hsink
  exact hrun

end Program

theorem runsAll_block {ss : List Stmt} {vars vars' : Variables} {r : Option Failure} {cs : List Command} :
    Stmt.RunsAll [.block ss] vars r vars' cs ↔ Stmt.RunsAll ss vars r vars' cs := by
  constructor
  · intro h
    cases h with
    | stops h =>
      cases h with
      | block h => exact h
    | cons h ht =>
      cases h with
      | block h =>
        cases ht
        rwa [List.append_nil]
  · intro h
    cases r with
    | some f => exact .stops (.block h)
    | none => exact List.append_nil cs ▸ .cons (.block h) .nil

theorem runsAll_append {ss ts : List Stmt} {vars vars' : Variables} {r : Option Failure} {cs : List Command} :
    Stmt.RunsAll (ss ++ ts) vars r vars' cs ↔
      (r ≠ none ∧ Stmt.RunsAll ss vars r vars' cs) ∨ ∃ vars₁ cs₁ cs₂, cs = cs₁ ++ cs₂ ∧
        Stmt.RunsAll ss vars none vars₁ cs₁ ∧ Stmt.RunsAll ts vars₁ r vars' cs₂ := by
  constructor
  · intro h
    induction ss generalizing vars cs with
    | nil => exact .inr ⟨vars, [], cs, rfl, .nil, h⟩
    | cons s ss ih =>
      cases h with
      | stops h => exact .inl ⟨nofun, .stops h⟩
      | @cons _ _ _ vars₁ _ _ cs₁ cs₂ h ht =>
        rcases ih ht with ⟨hr, ht⟩ | ⟨vars₂, ds, ds', rfl, hss, hts⟩
        · exact .inl ⟨hr, .cons h ht⟩
        · exact .inr ⟨vars₂, cs₁ ++ ds, ds', (List.append_assoc ..).symm, .cons h hss, hts⟩
  · intro h
    rcases h with ⟨hr, h⟩ | ⟨vars₁, cs₁, cs₂, rfl, hss, hts⟩
    · induction ss generalizing vars cs with
      | nil =>
        cases h
        exact absurd rfl hr
      | cons s ss ih =>
        cases h with
        | stops h => exact .stops h
        | cons h ht => exact .cons h (ih ht)
    · induction ss generalizing vars cs₁ with
      | nil =>
        cases hss
        exact hts
      | cons s ss ih =>
        cases hss with
        | cons h ht =>
          rw [List.append_assoc]
          exact .cons h (ih _ ht)

namespace Program

theorem ends_ofSeries {ss : List Stmt} {vars vars' : Variables} {r : Option Failure} {cs : List Command} :
    (ofSeries ss).Ends vars r vars' cs ↔ Stmt.RunsAll ss vars r vars' cs := by
  rw [ends_iff]
  cases ss with
  | nil => rfl
  | cons s ss => exact runsAll_block

theorem ends_append {ss ts : List Stmt} {vars vars' : Variables} {r : Option Failure} {cs : List Command} :
    (ofSeries (ss ++ ts)).Ends vars r vars' cs ↔
      (r ≠ none ∧ (ofSeries ss).Ends vars r vars' cs) ∨ ∃ vars₁ cs₁ cs₂, cs = cs₁ ++ cs₂ ∧
        (ofSeries ss).Ends vars none vars₁ cs₁ ∧ (ofSeries ts).Ends vars₁ r vars' cs₂ := by
  simp only [ends_ofSeries]
  exact runsAll_append

end Program

/-! ## A fault in the second -/

section
variable {limit depth : Nat} {c c₁ : Cursor}

theorem blockRest_rounds {rounds rounds' : Nat} (hl : c.left < limit) (hd : c.left < depth)
    (hr : c.left < rounds) (hr' : c.left < rounds') :
    Parser.blockRest (Parser.statement limit depth) rounds c =
      Parser.blockRest (Parser.statement limit depth) rounds' c := by
  have statement : ∀ d : Cursor, d.left < c.left + 1 →
      Answers (c.left + 1) Statement (Parser.statement limit depth) d (Parser.statement limit depth d) :=
    fun d hd' => Parser.answers_statement (by omega) (by omega) (by omega) (by omega)
  exact (Parser.answers_blockRest statement (Nat.lt_succ_self _) hr' (Nat.le_refl _) hr).agrees
    (Nat.lt_succ_self _)

theorem ne_eot_of_startsStatement {t : Token} (h : t.startsStatement = true) : t ≠ .eot := by
  rintro rfl
  cases h

theorem error_of_finish {s s' : Stmt} {e : SyntaxError} (h : Parser.finish s c = .error e) :
    Parser.finish s' c = .error e := by
  unfold Parser.finish at h ⊢
  by_cases ht : c.token = .eot
  · rw [if_pos ht] at h
    cases h
  · rwa [if_neg ht] at h ⊢

/-- Statements in front of what is refused change nothing but the block that is not completed. -/
theorem program_of_statements {w : List Token} {ss : List Stmt} (h : Statements w ss) (hw : c.Over w c₁)
    (ht : c₁.token.startsStatement = true) (hl : c.left < limit) {e : SyntaxError}
    (he : Parser.program limit c₁ = .error e) : Parser.program limit c = .error e := by
  have starts := starts_over_statements h hw
  have := hw.left_le
  obtain ⟨rounds, hr, rest⟩ := blockRest_of_statements h hw (endsAt_of_startsStatement ht) hl hl
    (show c.left < limit + 1 by omega)
  -- the loop has fewer rounds left at the second source than if it began there, but enough
  rw [blockRest_rounds (by omega) (by omega) hr (show c₁.left < limit + 1 by omega)] at rest
  rw [Parser.program_block (ne_eot_of_startsStatement ht), Parser.block_eq ht] at he
  rw [Parser.program_block (ne_eot_of_startsStatement starts), Parser.block_eq starts, rest]
  cases hb : Parser.blockRest (Parser.statement limit limit) (limit + 1) c₁ with
  | error e' =>
    rw [hb] at he
    exact he
  | ok r =>
    obtain ⟨ts, c₂⟩ := r
    rw [hb] at he
    exact error_of_finish he

end

namespace Program

theorem ofReadings_eq_error_iff {rs : List Reading} {e : SyntaxError} :
    ofReadings rs = .error e ↔ read rs = .error e := by
  unfold ofReadings
  cases read rs with
  | error e =>
    constructor <;> intro h <;> cases h <;> rfl
  | ok r => exact ⟨(nomatch ·), (nomatch ·)⟩

theorem read_later {rs : List Reading} {e : SyntaxError} (h : read rs = .error e)
    (hend : .ok .eot ∈ rs.map Reading.answer) (k : Nat) :
    read (rs.map (Reading.later k)) = .error ⟨e.line + k, e.cause⟩ := by
  obtain ⟨i, r, r', hr, hr', line, later⟩ := read_of_answers h hend
    (show (rs.map (Reading.later k)).map Reading.answer = rs.map Reading.answer from List.map_map)
  rw [List.getElem?_map, hr] at hr'
  obtain rfl := Option.some.inj hr'
  rw [line]
  exact later

theorem read_behind {us vs : List Reading} {w : List Token} {ss : List Stmt} (hw : Rest w ss)
    (hu : us.map Reading.answer = w.map .ok) {r : Reading} {t : Token} (hr : r.answer = .ok t)
    (ht : t.startsStatement = true) {e : SyntaxError} (h : read (r :: vs) = .error e) :
    read (us ++ r :: vs) = .error e := by
  rcases hw with ⟨rfl, -⟩ | hw
  · obtain rfl := List.map_eq_nil_iff.mp hu
    exact h
  · -- the line before the first reading plays no part
    have next : ∀ line, Cursor.next line (r :: vs) = .ok ⟨t, r.line, vs⟩ :=
      fun line => by rw [Cursor.next, hr]
    have hp := not_mem_eot_of_derives (derives_ofSeries (.inr hw))
    obtain ⟨c, hc, behind⟩ := Cursor.exists_over hu hp (next _)
    have := Cursor.left_next hc
    have bound : (r :: vs).length < (us ++ r :: vs).length + 1 := by
      rw [List.length_append]
      omega
    rw [read_eq_program (next 1) bound] at h
    rw [read_eq hc]
    exact program_of_statements hw behind ht (by omega) h

end Program

/-! ## Sources on lines behind one another -/

theorem isChain_of_answers {ls : List Lexeme} (h : (ls.filterMap Lexeme.answer?).IsChain fun a a' =>
    ¬(a = .ok (.symbol .slash) ∧ a' = .ok (.symbol .star))) : ls.IsChain fun l l' => ¬l.Opens l' := by
  induction ls with
  | nil => exact .nil
  | cons l ls ih =>
    cases ls with
    | nil => exact .singleton l
    | cons l' ls =>
      refine List.isChain_cons_cons.mpr ⟨?_, ih ?_⟩
      · rintro ⟨hl, hl'⟩
        have answer : l.answer? = some (.ok (.symbol .slash)) := by rw [Lexeme.answer?, hl]
        have answer' : l'.answer? = some (.ok (.symbol .star)) := by rw [Lexeme.answer?, hl']
        rw [List.filterMap_cons_some answer, List.filterMap_cons_some answer'] at h
        exact (List.isChain_cons_cons.mp h).1 ⟨rfl, rfl⟩
      · rw [List.filterMap_cons] at h
        split at h
        · exact h
        · exact h.tail

section
variable {s₁ : String} {w : List Token} {p₁ : Program} (hw : answersOf s₁.toList = w.map .ok)
    (hp : Derives w p₁)
include hw hp

theorem isChain_lexemes : (lexemes s₁.toList).IsChain fun l l' => ¬l.Opens l' := by
  apply isChain_of_answers
  rw [← answersOf, hw, List.isChain_map]
  refine (isChain_of_derives hp).imp fun t t' h ht => h ⟨?_, ?_⟩
  · exact Except.ok.inj ht.1
  · exact Except.ok.inj ht.2

theorem answersOf_behind (s₂ : String) :
    answersOf (s₁ ++ "\n" ++ s₂).toList = answersOf s₁.toList ++ answersOf s₂.toList := by
  rw [toList_newline, answersOf, lexemes_newline (isChain_lexemes hw hp), List.filterMap_append]
  rfl

theorem readings_behind (s₂ : String) : ∃ us, readings (s₁ ++ "\n" ++ s₂) =
    us ++ (readings s₂).map (Reading.later (s₁.toList.count '\n' + 1)) ∧ us.map Reading.answer = w.map .ok :=
  ⟨_, readings_newline (isChain_lexemes hw hp) s₂, (answers_dropLast 1 _).trans hw⟩

end

namespace Program

/-- Behind a source that is a program, on the next line, a second program goes on with it: the
statements of both are one series, and the series ends as the first does or, if that does not fail, as
the second does from there. A second source that is no program but begins like a statement is refused
for the same cause on the line that it has there. -/
theorem ofSource_behind {s₁ : String} {p₁ : Program} (h₁ : ofSource s₁ = .ok p₁) (s₂ : String) :
    (∀ p₂, ofSource s₂ = .ok p₂ → ∃ ss₁ ss₂, p₁ = ofSeries ss₁ ∧ p₂ = ofSeries ss₂ ∧
      ofSource (s₁ ++ "\n" ++ s₂) = .ok (ofSeries (ss₁ ++ ss₂)) ∧
      ∀ vars r vars' cs, (ofSeries (ss₁ ++ ss₂)).Ends vars r vars' cs ↔
        (r ≠ none ∧ p₁.Ends vars r vars' cs) ∨ ∃ vars₁ cs₁ cs₂, cs = cs₁ ++ cs₂ ∧
          p₁.Ends vars none vars₁ cs₁ ∧ p₂.Ends vars₁ r vars' cs₂) ∧
    ∀ e t, ofSource s₂ = .error e → (readings s₂).head?.map Reading.answer = some (.ok t) →
      t.startsStatement = true →
      ofSource (s₁ ++ "\n" ++ s₂) = .error ⟨e.line + (s₁.toList.count '\n' + 1), e.cause⟩ := by
  obtain ⟨w, hw, hp₁⟩ := tokens_of_source h₁
  obtain ⟨ss₁, series₁, hss₁⟩ := exists_series hp₁
  refine ⟨fun p₂ h₂ => ?_, fun e t h₂ ht hs => ?_⟩
  · obtain ⟨v, hv, hp₂⟩ := tokens_of_source h₂
    obtain ⟨ss₂, series₂, hss₂⟩ := exists_series hp₂
    have spelled : answersOf (s₁ ++ "\n" ++ s₂).toList = (w ++ v).map .ok := by
      rw [answersOf_behind hw hp₁ s₂, hw, hv, List.map_append]
    refine ⟨ss₁, ss₂, hss₁, hss₂, ?_, ?_⟩
    · exact (ofSource_eq_ok_iff spelled).mpr (derives_ofSeries (rest_append series₁ series₂))
    · intro vars r vars' cs
      rw [hss₁, hss₂]
      exact ends_append
  · obtain ⟨us, hr, hu⟩ := readings_behind hw hp₁ s₂
    have hend : .ok .eot ∈ (readings s₂).map Reading.answer :=
      answers_readings s₂ ▸ List.mem_append_right _ (List.mem_singleton_self _)
    have later := read_later (ofReadings_eq_error_iff.mp h₂) hend (s₁.toList.count '\n' + 1)
    obtain ⟨r, hhead, hr'⟩ := Option.map_eq_some_iff.mp ht
    obtain ⟨rs, hrs⟩ := List.head?_eq_some_iff.mp hhead
    rw [hrs, List.map_cons] at later hr
    rw [ofSource, hr, ofReadings_eq_error_iff]
    exact read_behind series₁ hu (r := r.later _) hr' hs later

/-- A comment ends with its line: the commands of the next line come behind those before it, and a fault
on that line is told with it. -/
theorem ofSource_behind_comment :
    (∃ p, ofSource ("HOME//" ++ "\n" ++ "HOME") = .ok p ∧ p.Ends .empty none .empty [.home, .home]) ∧
    ofSource ("HOME//" ++ "\n" ++ "HOME?") = .error ⟨2, .invalidCharacter "?"⟩ := by
  have home (cs : List Char) (h : Lexeme.scan 'H' ('O' :: 'M' :: 'E' :: cs) =
      (⟨some (.keyword .home), ['H', 'O', 'M', 'E']⟩, cs)) := lexemes_scan h
  have comment : Lexeme.scan '/' ['/'] = (⟨some (.filler .lineComment), ['/', '/']⟩, []) := rfl
  have fault : Lexeme.scan '?' [] = (⟨none, ['?']⟩, []) := rfl
  have first : ofSource "HOME//" = .ok (ofSeries [.action .home]) := by
    have lexed : lexemes "HOME//".toList = _ :=
      (home ['/', '/'] rfl).trans (by rw [lexemes_scan comment, lexemes])
    rw [ofSource, readings, lexed]
    rfl
  have second : ofSource "HOME" = .ok (ofSeries [.action .home]) := by
    have lexed : lexemes "HOME".toList = _ := (home [] rfl).trans (by rw [lexemes])
    rw [ofSource, readings, lexed]
    rfl
  have third : readings "HOME?" = [⟨1, .ok (.keyword .home)⟩, ⟨1, .error "?"⟩, ⟨1, .ok .eot⟩] := by
    have lexed : lexemes "HOME?".toList = _ := (home ['?'] rfl).trans (by rw [lexemes_scan fault, lexemes])
    rw [readings, lexed]
    rfl
  obtain ⟨ss₁, ss₂, -, -, both, ends⟩ := (ofSource_behind first "HOME").1 _ second
  have once : (ofSeries [.action .home]).Ends .empty none .empty [.home] := ⟨0, rfl⟩
  have twice := (ends .empty none .empty [.home, .home]).mpr
    (.inr ⟨.empty, [.home], [.home], rfl, once, once⟩)
  have refused : ofSource "HOME?" = .error ⟨1, .invalidCharacter "?"⟩ := by
    rw [ofSource, third]
    rfl
  have starts : (readings "HOME?").head?.map Reading.answer = some (.ok (.keyword .home)) := by
    rw [third]
    rfl
  exact ⟨⟨_, both, twice⟩, (ofSource_behind first "HOME?").2 _ _ refused starts rfl⟩

end Program

end Turtle
