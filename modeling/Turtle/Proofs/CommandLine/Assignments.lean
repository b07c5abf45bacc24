import Turtle.Proofs.CommandLine.Agreement
import Turtle.Proofs.Number.Negation
import Turtle.Proofs.Program.Composition

/-!
# Definitions as assignments

A variable that is defined on the command line might as well be assigned in front of the program
(`run_settings`). The text of its value is read twice: at once with its sign, and as a literal that the
run negates. Both give one number, to the sign of a zero.
-/

namespace Turtle

open Grammar

/-- A literal, with a sign or without one and with blanks around it. -/
def IsSigned (cs : List Char) : Prop :=
  ∃ front sign literal back, cs = front ++ (sign ++ literal ++ back) ∧
    (∀ c ∈ front ++ back, Lexeme.isBlank c = true) ∧
    Numeral.IsSign sign ∧ (literal ∈ Pattern.number.language ∨ literal ∈ Pattern.fraction.language)

/-! ## Values -/

namespace Lexeme

theorem eq_of_isBlank {c : Char} (h : isBlank c = true) : c = ' ' ∨ c = '\t' ∨ c = '\r' ∨ c = '\x0c' := by
  simpa [isBlank, or_assoc] using h

theorem answersOf_blanks {cs : List Char} (h : ∀ c ∈ cs, isBlank c = true) (r : List Char) :
    answersOf (cs ++ r) = answersOf r := by
  induction cs with
  | nil => rfl
  | cons c cs ih =>
    rw [List.forall_mem_cons] at h
    rw [List.cons_append, answersOf_blank h.1, ih h.2]

theorem answersOf_plus (cs : List Char) : answersOf ('+' :: cs) = .ok (.symbol .plus) :: answersOf cs :=
  answersOf_scan (l := ⟨some (.symbol .plus), ['+']⟩) rfl rfl

theorem answersOf_numeral {n : Numeral} (h : n.IsWritten) {v : Number} (hv : Number.ofChars n.text = .ok v)
    {r : List Char} (hr : ∀ c ∈ r.head?, isBlank c = true) :
    answersOf (n.text ++ r) = .ok (.real v) :: answersOf r := by
  have stop : ∀ c ∈ r.head?, Numeral.isPart c = false := by
    intro c hc
    rcases eq_of_isBlank (hr c hc) with rfl | rfl | rfl | rfl <;> rfl
  obtain ⟨n', scan, text⟩ := Numeral.scan?_of_isWritten h stop
  obtain ⟨d, t, ht, hd⟩ := Numeral.exists_head_of_isWritten h
  rw [ht, List.cons_append] at scan ⊢
  refine answersOf_scan (scan_number hd scan) ?_
  rw [text, hv]
  rfl

theorem isWordRest_of_mem {x : String} (h : IsName x) : ∀ c ∈ x.toList, isWordRest c = true := by
  obtain ⟨⟨c, cs, hx, hc, hcs⟩, -⟩ := h
  rw [hx, List.forall_mem_cons]
  refine ⟨?_, hcs⟩
  rcases Bool.or_eq_true_iff.mp hc with hc | hc <;> simp [isWordRest, Char.isAlphanum, hc]

end Lexeme

namespace CommandLine

theorem isWhite_of_isBlank {c : Char} (h : Lexeme.isBlank c = true) : isWhite c = true := by
  rcases Lexeme.eq_of_isBlank h with rfl | rfl | rfl | rfl <;> rfl

theorem isWhite_of_isPart {c : Char} (h : Numeral.isPart c = true) : isWhite c = false := by
  rcases Bool.or_eq_true_iff.mp h with hd | hs
  · exact isWhite_of_isDigit hd
  · exact (by simp [isWhite] : ∀ c ∈ ['.', 'e', 'E', '+', '-'], isWhite c = false) c (of_decide_eq_true hs)

theorem toNat_le_of_isAlpha {c : Char} (h : c.isAlpha = true) : c.toNat ≤ 122 := by
  rcases Bool.or_eq_true_iff.mp h with h | h
  · exact Nat.le_trans (UInt32.le_iff_toNat_le.mp (of_decide_eq_true h).2) (by decide)
  · exact UInt32.le_iff_toNat_le.mp (of_decide_eq_true (Bool.and_eq_true_iff.mp h).2)

theorem isWhite_of_isWordRest {c : Char} (h : Lexeme.isWordRest c = true) : isWhite c = false := by
  rcases Bool.or_eq_true_iff.mp h with h | h
  · rcases Bool.or_eq_true_iff.mp h with h | h
    · have := Lexeme.le_toNat_of_isAlpha h
      have := toNat_le_of_isAlpha h
      simp only [isWhite, Bool.or_eq_false_iff, Bool.and_eq_false_iff, decide_eq_false_iff_not]
      omega
    · exact isWhite_of_isDigit h
  · rw [of_decide_eq_true h]
    rfl

theorem isPart_of_isSign {sign : List Char} (h : Numeral.IsSign sign) :
    ∀ c ∈ sign, Numeral.isPart c = true := by
  rcases h with rfl | rfl | rfl
  · exact List.forall_mem_nil _
  · exact List.forall_mem_singleton.mpr rfl
  · exact List.forall_mem_singleton.mpr rfl

section
variable {n : Numeral} (hn : n.IsWritten) {front back : List Char}
include hn

/-- What reads the value at once takes off the blanks and nothing else. -/
theorem trim_signed {sign : List Char} (hs : Numeral.IsSign sign) (hf : ∀ c ∈ front, Lexeme.isBlank c = true)
    (hb : ∀ c ∈ back, Lexeme.isBlank c = true) :
    trim (front ++ (sign ++ n.text ++ back)) = sign ++ n.text := by
  obtain ⟨c, t, ht, -⟩ := Numeral.exists_head_of_isWritten hn
  have written : sign ++ n.text ≠ [] := by
    rw [ht]
    exact List.append_ne_nil_of_right_ne_nil _ (List.cons_ne_nil _ _)
  have part : ∀ c ∈ sign ++ n.text, Numeral.isPart c = true :=
    List.forall_mem_append.mpr ⟨isPart_of_isSign hs, fun _ => Numeral.isPart_of_mem hn⟩
  exact trim_append (fun c hc => isWhite_of_isBlank (hf c hc)) (fun c hc => isWhite_of_isBlank (hb c hc))
    (fun c hc => isWhite_of_isPart (part c hc)) written

theorem answersOf_literal {v : Number} (hv : Number.ofChars n.text = .ok v)
    (hb : ∀ c ∈ back, Lexeme.isBlank c = true) (r : List Char) :
    answersOf (n.text ++ (back ++ ' ' :: r)) = .ok (.real v) :: answersOf r := by
  have blanks : ∀ c ∈ back ++ [' '], Lexeme.isBlank c = true :=
    List.forall_mem_append.mpr ⟨hb, List.forall_mem_singleton.mpr rfl⟩
  have next : ∀ c ∈ (back ++ ' ' :: r).head?, Lexeme.isBlank c = true := by
    rw [List.append_cons, List.head?_append_of_ne_nil _ (by simp)]
    exact fun c hc => blanks c (List.mem_of_mem_head? hc)
  rw [Lexeme.answersOf_numeral hn hv next, List.append_cons, Lexeme.answersOf_blanks blanks]

end

theorem exists_amount {cs : List Char} (h : IsSigned cs) : ∃ v ts e, Number.ofChars (trim cs) = .ok v ∧
    Phrase .expr ts e ∧ (∀ vars, e.eval vars = .ok v) ∧
    ∀ r, answersOf (cs ++ ' ' :: r) = ts.map .ok ++ answersOf r := by
  obtain ⟨front, sign, literal, back, rfl, blank, hs, hl⟩ := h
  obtain ⟨n, hn, rfl⟩ := Pattern.mem_number_or_fraction.mp hl
  obtain ⟨m, value⟩ := Number.ofChars_sign_of_isWritten hn
  obtain ⟨hf, hb⟩ := List.forall_mem_append.mp blank
  have literal := answersOf_literal hn (value [] (.inl rfl)) hb
  have signed (r : List Char) : answersOf (front ++ (sign ++ n.text ++ back) ++ ' ' :: r) =
      answersOf (sign ++ (n.text ++ (back ++ ' ' :: r))) := by
    rw [List.append_assoc, Lexeme.answersOf_blanks hf]
    simp only [List.append_assoc]
  rw [trim_signed hn hs hf hb, value sign hs]
  rcases hs with rfl | rfl | rfl
  · exact ⟨_, [.real (m.toNumber false)], _, rfl, .operand rfl (.operand rfl .number), fun _ => rfl,
      fun r => (signed r).trans (literal r)⟩
  · exact ⟨_, [.symbol .plus, .real (m.toNumber false)], _, rfl,
      .operand rfl (.operand rfl (.plus .number)), fun _ => rfl,
      fun r => (signed r).trans ((Lexeme.answersOf_plus _).trans (congrArg _ (literal r)))⟩
  · exact ⟨_, [.symbol .minus, .real (m.toNumber false)], _, rfl,
      .operand rfl (.operand rfl (.minus .number)), fun _ => congrArg Except.ok (m.neg_toNumber false),
      fun r => (signed r).trans ((Lexeme.answersOf_minus _).trans (congrArg _ (literal r)))⟩

/-! ## One setting -/

structure Setting where
  name : String
  value : String

namespace Setting

structure IsPlain (s : Setting) : Prop where
  name : Lexeme.IsName s.name
  value : IsSigned s.value.toList

def text (s : Setting) : String := s.name ++ "=" ++ s.value

def words (s : Setting) : List String := ["-D", s.text]

def assignment (s : Setting) : String := s.name ++ " := " ++ s.value ++ " "

structure Gives (s : Setting) (d : Definition) : Prop where
  name : d.name = s.name
  read : Definition.ofText s.text = .ok d
  given : d.GivenBy s.words

variable {s : Setting}

theorem toList_text : s.text.toList = s.name.toList ++ '=' :: s.value.toList := by
  rw [text, String.toList_append, String.toList_append, List.append_assoc]
  rfl

theorem toList_assignment (r : List Char) : s.assignment.toList ++ r =
    s.name.toList ++ ' ' :: (Symbol.assign.text.toList ++ ' ' :: (s.value.toList ++ ' ' :: r)) := by
  rw [assignment, String.toList_append, String.toList_append, String.toList_append]
  simp only [List.append_assoc]
  rfl

theorem not_isOption_text (h : s.IsPlain) : ¬IsOption s.text := by
  rintro ⟨c, cs, text⟩
  obtain ⟨⟨d, ds, name, hd, -⟩, -⟩ := h.name
  rw [toList_text, name] at text
  obtain rfl := (List.cons.inj text).1
  cases hd

/-- A setting is read as a definition, and its assignment binds the same name to the same number. -/
theorem exists_definition (h : s.IsPlain) :
    ∃ d ts e, s.Gives d ∧ Phrase .expr ts e ∧ (∀ vars, e.eval vars = .ok d.value) ∧
    ∀ r, answersOf (s.assignment.toList ++ r) =
      (.identifier s.name :: .symbol .assign :: ts).map .ok ++ answersOf r := by
  obtain ⟨v, ts, e, read, phrase, value, answers⟩ := exists_amount h.value
  have chars := Lexeme.isWordRest_of_mem h.name
  have sign : '=' ∉ s.name.toList := fun he => nomatch chars _ he
  have written : Definition.WrittenAs ⟨s.name, v⟩ s.text :=
    ⟨⟨sign, trim_of_not_white fun c hc => isWhite_of_isWordRest (chars c hc)⟩, _, toList_text, read⟩
  refine ⟨⟨s.name, v⟩, ts, e, ⟨rfl, Definition.ofText_of_writtenAs written,
    .apart List.mem_cons_self written (not_isOption_text h)⟩, phrase, value, fun r => ?_⟩
  rw [toList_assignment, Spells.name h.name _ (.cons (.inl rfl) _), Lexeme.answersOf_space,
    Lexeme.answersOf_symbol .assign (.cons (.inl rfl) _), Lexeme.answersOf_space, answers]
  rfl

end Setting

/-! ## All settings -/

def assignments (ss : List Setting) : String := .ofList (ss.flatMap fun s => s.assignment.toList)

theorem exists_assignments {ss : List Setting} (h : ∀ s ∈ ss, s.IsPlain) :
    ∃ ds w ts, List.Forall₂ Setting.Gives ss ds ∧
    Rest w ts ∧ (∀ r, answersOf ((ss.flatMap fun s => s.assignment.toList) ++ r) = w.map .ok ++ answersOf r) ∧
    ∀ {σ : Type} [Sink σ] (limit : Nat) (rest : List Stmt) (vars : Variables) (sink : σ),
      Stmt.execAll limit (ts ++ rest) ⟨vars, sink⟩ =
        Stmt.execAll limit rest ⟨ds.foldl (fun vars d => vars.put d.name d.value) vars, sink⟩ := by
  induction ss with
  | nil => exact ⟨[], [], [], .nil, .inl ⟨rfl, rfl⟩, fun _ => rfl, fun _ _ _ _ => rfl⟩
  | cons s ss ih =>
    rw [List.forall_mem_cons] at h
    obtain ⟨d, w, e, gives, phrase, value, answers⟩ := Setting.exists_definition h.1
    obtain ⟨ds, w', ts, givesAll, series, answersAll, execAll⟩ := ih h.2
    refine ⟨d :: ds, _, .assign s.name e :: ts, .cons gives givesAll,
      .inr (statements_of_rest (.assign phrase) series), fun r => ?_, fun limit rest vars sink => ?_⟩
    · rw [List.flatMap_cons, List.append_assoc, answers, answersAll, List.map_append, List.append_assoc]
    · rw [List.cons_append, Stmt.execAll, Stmt.exec, value, ← gives.name]
      exact execAll limit rest _ sink

theorem options_words {ss : List Setting} {ds : List Definition} (h : List.Forall₂ Setting.Gives ss ds)
    {fs : List Flag} {ds' : List Definition} {ws : List String} (options : Options fs ds' ws) :
    Options fs (ds' ++ ds) (ws ++ ss.flatMap Setting.words) := by
  induction h generalizing ds' ws with
  | nil => simpa using options
  | cons gives _ ih => simpa using ih (options.define gives.given)

/-! ## Runs -/

/-- These words ask for a run of this source, and for no more to be told of it. -/
structure Invocation.Asks (i : Invocation) (files : String → Option String) (words : List String)
    (source : String) :
    Prop where
  words : Request.ofWords words = .ok (.run i)
  reads : i.Reads files source
  ast : i.ast = false
  verbosity : i.verbosity = 0

theorem Invocation.Asks.run_eq {i : Invocation} {files : String → Option String} {words : List String}
    {source : String} (h : i.Asks files words source) {p : Program} (hp : Program.ofSource source = .ok p)
    (limit : Nat) :
    run limit files words = (p.exec limit ⟨i.startVariables, #[]⟩).map fun e =>
      ⟨if e.failure = none then 0 else 1, .ofList (lines e.machine.sink.toList),
        e.failure.toList.map Failure.message⟩ := by
  have told := runSource_eq limit h.ast source
  rw [run_of_reads h.words h.reads]
  simp only [hp] at told
  cases hd : p.exec limit ⟨i.startVariables, (#[] : Array Command)⟩ with
  | none =>
    rw [hd] at told
    exact told
  | some e =>
    rw [hd] at told
    obtain ⟨o, outcome, reports⟩ := told
    rw [outcome, reports.quiet h.verbosity]
    rfl

/-- Definitions on the command line do what their assignments do in front of the program. The words give
them in their order, the assignments and the source are a program whenever the source is one, and the
two runs have one outcome and end with the same variables, into any sink. Of several definitions of one
name the last one counts. -/
theorem run_settings {ss : List Setting} (h : ∀ s ∈ ss, s.IsPlain) {source : String} {p : Program}
    (hp : Program.ofSource source = .ok p) :
    ∃ ds p', List.Forall₂ Setting.Gives ss ds ∧ Program.ofSource (assignments ss ++ source) = .ok p' ∧
      (∀ fs ws program last, Options fs [] ws → Last program last →
        Request.ofWords (ws ++ ss.flatMap Setting.words ++ last) =
          .ok (.run ⟨.file ∈ fs, .lenient ∈ fs, .ast ∈ fs, fs.count .verbose, ds, program⟩)) ∧
      ∀ (i i' : Invocation) (files files' words words'), i.Asks files words source →
      i'.Asks files' words' (assignments ss ++ source) →
        i.definitions = ds → i'.definitions = [] → i.lenient = i'.lenient → ∀ limit,
          run limit files words = run limit files' words' ∧
          (∀ {σ : Type} [Sink σ] (sink : σ),
            p.exec limit ⟨i.startVariables, sink⟩ = p'.exec limit ⟨i'.startVariables, sink⟩) ∧
          ∀ x, i.startVariables.lookup x = i.entries.reverse.lookup x := by
  obtain ⟨ds, w, ts, gives, series, answers, execAll⟩ := exists_assignments h
  obtain ⟨v, hv, derives⟩ := Program.tokens_of_source hp
  obtain ⟨us, rest, rfl⟩ := Program.exists_series derives
  have spelled : answersOf (assignments ss ++ source).toList = (w ++ v).map .ok := by
    rw [String.toList_append, assignments, String.toList_ofList, answers, hv, List.map_append]
  have hp' := (Program.ofSource_eq_ok_iff spelled).mpr (Program.derives_ofSeries (rest_append series rest))
  refine ⟨ds, _, gives, hp',
    fun fs ws program last options hl => ofWords_options (options_words gives options) hl, ?_⟩
  intro i i' files files' words words' asks asks' defined none lenient limit
  have exec {σ : Type} [Sink σ] (sink : σ) : (Program.ofSeries us).exec limit ⟨i.startVariables, sink⟩ =
      (Program.ofSeries (ts ++ us)).exec limit ⟨i'.startVariables, sink⟩ := by
    rw [Program.exec_ofSeries, Program.exec_ofSeries, execAll, Invocation.startVariables,
      Invocation.startVariables, defined, none, lenient]
    rfl
  refine ⟨?_, exec, fun x => ?_⟩
  · rw [asks.run_eq hp, asks'.run_eq hp', exec]
  · rw [Invocation.startVariables_eq]
    exact Bindings.lookup_ofList _ x

/-- Two definitions of one name, each with a sign, and the two assignments: the second number is the one
that counts. -/
theorem run_settings_twice :
    run 10 (fun _ => none) ["-D", "n=-.5", "-D", "n= +2 ", "LEFT n"] = some ⟨0, "R 2\n", []⟩ ∧
    run 10 (fun _ => none) ["n := -.5 n :=  +2  LEFT n"] = some ⟨0, "R 2\n", []⟩ := by
  have name : Lexeme.IsName "n" := ⟨⟨'n', [], rfl, rfl, List.forall_mem_nil _⟩, by decide⟩
  have half : IsSigned "-.5".toList := by
    refine ⟨[], ['-'], ['.', '5'], [], rfl, List.forall_mem_nil _, .inr (.inr rfl), ?_⟩
    exact Pattern.mem_number_or_fraction.mpr
      ⟨⟨[], ['.', '5'], []⟩,
        ⟨List.forall_mem_nil _, .inr ⟨['5'], rfl, List.forall_mem_singleton.mpr rfl⟩, .inl rfl,
        fun _ => Nat.le_refl 2⟩, rfl⟩
  have two : IsSigned " +2 ".toList := by
    refine ⟨[' '], ['+'], ['2'], [' '], rfl,
      List.forall_mem_cons.mpr ⟨rfl, List.forall_mem_singleton.mpr rfl⟩, .inr (.inl rfl), ?_⟩
    exact Pattern.mem_number_or_fraction.mpr
      ⟨⟨['2'], [], []⟩, ⟨List.forall_mem_singleton.mpr rfl, .inl rfl, .inl rfl,
        fun h => absurd h (List.cons_ne_nil _ _)⟩, rfl⟩
  have plain : ∀ s ∈ ([⟨"n", "-.5"⟩, ⟨"n", " +2 "⟩] : List Setting), s.IsPlain :=
    List.forall_mem_cons.mpr ⟨⟨name, half⟩, List.forall_mem_singleton.mpr ⟨name, two⟩⟩
  have parsed : Program.ofSource "LEFT n" = .ok ⟨[.block [.motion .left (.variable "n")]]⟩ := by
    have lexed : lexemes "LEFT n".toList = _ :=
      lexemes_of_scan rfl <| lexemes_of_scan rfl <| lexemes_of_scan rfl lexemes.eq_1
    rw [Program.ofSource, readings, lexed]
    rfl
  obtain ⟨ds, p', -, -, words, agree⟩ := run_settings plain parsed
  have last : ¬IsOption "LEFT n" := by
    rintro ⟨c, cs, h⟩
    cases (List.cons.inj h).1
  have defined := words [] [] "LEFT n" _ .none (.bare last)
  have assigned : Request.ofWords ["n := -.5 n :=  +2  LEFT n"] =
    .ok (.run ⟨false, false, false, 0, [], "n := -.5 n :=  +2  LEFT n"⟩) := rfl
  have alike : run 10 (fun _ => none) ["-D", "n=-.5", "-D", "n= +2 ", "LEFT n"] =
      run 10 (fun _ => none) ["n := -.5 n :=  +2  LEFT n"] :=
    (agree _ _ _ _ _ _ ⟨defined, rfl, rfl, rfl⟩ ⟨assigned, rfl, rfl, rfl⟩ rfl rfl rfl 10).1
  let i : Invocation :=
    ⟨false, false, false, 0, [⟨"n", .ofBits 0xbf000000⟩, ⟨"n", .ofBits 0x40000000⟩], "LEFT n"⟩
  have asks : i.Asks (fun _ => none) ["-D", "n=-.5", "-D", "n= +2 ", "LEFT n"] "LEFT n" :=
    ⟨rfl, rfl, rfl, rfl⟩
  have outcome : run 10 (fun _ => none) ["-D", "n=-.5", "-D", "n= +2 ", "LEFT n"] =
      some ⟨0, "R 2\n", []⟩ := by
    have ran : Program.exec 10 ⟨[.block [.motion .left (.variable "n")]]⟩
      ⟨i.startVariables, (#[] : Array Command)⟩ =
        some ⟨⟨i.startVariables, #[.rotate (.ofBits 0x40000000)]⟩, none⟩ := rfl
    have text : Number.chars (.ofBits 0x40000000) = ['2'] := by decide +kernel
    rw [asks.run_eq parsed, ran]
    simp only [Option.map_some, lines, List.flatMap_cons, List.flatMap_nil, Command.line, Command.chars, text]
    rfl
  exact ⟨outcome, alike.symm.trans outcome⟩

end CommandLine

end Turtle
