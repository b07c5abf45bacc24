import Turtle.Proofs.Number.Negation
import Turtle.Proofs.Program.Composition
import Turtle.Proofs.Sink.Records

/-!
# Programs on one line

Tokens that are written with blanks between them are answered again, one by one. So all that a program
is can stand on its first line: written in this way, the tokens of a source are the same program, or are
refused for the same cause.
-/

namespace Turtle

namespace Token

/-- What can be read where it is written: no separator and no end, a name that is not taken, a finite
number without a sign. -/
def IsLegible : Token → Prop
  | .real v => Float32.isFinite v = true ∧ Number.isNegative v = false
  | .identifier x => Lexeme.IsName x
  | .keyword _ | .symbol _ => True
  | .filler _ | .eot => False

def oneLine (ts : List Token) : String := " ".intercalate (ts.map text)

/-! ## One token -/

theorem spells_text {t : Token} (h : t.IsLegible) : Spells t.text.toList [t] := by
  cases t with
  | real v =>
    obtain ⟨finite, sign⟩ := h
    obtain ⟨m, negative, hm, rfl⟩ := Number.exists_magnitude finite
    obtain rfl : negative = false := (Number.isNegative_toNumber m negative).symm.trans sign
    rw [text, Number.text, String.toList_ofList]
    exact .finite hm
  | identifier x => exact .name h
  | keyword k => exact .keyword k
  | symbol s => exact .symbol s
  | filler _ | eot => cases h

theorem newline_not_mem_text {t : Token} (h : t.IsLegible) : '\n' ∉ t.text.toList := by
  cases t with
  | real v =>
    rw [text, Number.text, String.toList_ofList]
    exact v.newline_not_mem_chars
  | identifier x => exact Pattern.newline_not_mem_of_identifier (Pattern.mem_identifier.mpr h.isWord)
  | keyword k => exact Pattern.newline_not_mem_of_identifier (Pattern.identifier_of_keyword rfl)
  | symbol s => cases s <;> decide
  | filler _ | eot => cases h

end Token

/-! ## Many tokens -/

theorem toList_oneLine (ts : List Token) :
    (Token.oneLine ts).toList = [' '].intercalate (ts.map fun t => t.text.toList) := by
  rw [Token.oneLine, String.toList_intercalate, List.map_map]
  rfl

theorem newline_not_mem_joined {css : List (List Char)} (h : ∀ cs ∈ css, '\n' ∉ cs) :
    '\n' ∉ [' '].intercalate css := by
  induction css with
  | nil => exact List.not_mem_nil
  | cons cs css ih =>
    obtain ⟨hcs, hcss⟩ := List.forall_mem_cons.mp h
    cases css with
    | nil => rwa [List.intercalate_singleton]
    | cons cs' css =>
      rw [List.intercalate_cons_cons]
      exact List.not_mem_append (List.not_mem_append hcs (by decide)) (ih hcss)

section
variable {ts : List Token} (h : ∀ t ∈ ts, t.IsLegible)
include h

theorem answersOf_oneLine : answersOf (Token.oneLine ts).toList = ts.map .ok := by
  have each : List.Forall₂ Spells (ts.map fun t => t.text.toList) (ts.map fun t => [t]) := by
    rw [List.forall₂_map_left_iff, List.forall₂_map_right_iff, List.forall₂_same]
    exact fun t ht => Token.spells_text (h t ht)
  have spells := Spells.joined (.inl rfl) each [] (by simp [Bounded])
  rw [List.append_nil, answersOf_nil, List.append_nil] at spells
  rw [toList_oneLine, spells, ← List.flatMap_def, List.flatMap_singleton']

theorem newline_not_mem_oneLine : '\n' ∉ (Token.oneLine ts).toList := by
  rw [toList_oneLine]
  apply newline_not_mem_joined
  intro cs hcs
  obtain ⟨t, ht, rfl⟩ := List.mem_map.mp hcs
  exact Token.newline_not_mem_text (h t ht)

end

/-! ## One line -/

theorem readingsOf_of_lineEnds {ls : List Lexeme} (h : ∀ l ∈ ls, l.lineEnds = 0) (line : Nat) :
    readingsOf line ls = (ls.filterMap Lexeme.answer? ++ [Except.ok Token.eot]).map (Reading.mk line) := by
  induction ls with
  | nil => rfl
  | cons l ls ih =>
    obtain ⟨hl, hls⟩ := List.forall_mem_cons.mp h
    rw [readingsOf_cons, hl, Nat.add_zero, ih hls, List.filterMap_cons]
    cases l.answer? <;> rfl

theorem readings_of_newline_not_mem {source : String} (h : '\n' ∉ source.toList) :
    readings source = (answersOf source.toList ++ [Except.ok Token.eot]).map (Reading.mk 1) := by
  refine readingsOf_of_lineEnds (fun l hl => ?_) 1
  rw [lineEnds_of_mem hl, List.count_eq_zero]
  intro hn
  apply h
  rw [← flatMap_text_lexemes source.toList]
  exact List.mem_flatMap.mpr ⟨l, hl, hn⟩

theorem filler_not_mem_answersOf (f : Filler) (cs : List Char) : .ok (.filler f) ∉ answersOf cs := by
  intro h
  obtain ⟨l, -, ha⟩ := List.mem_filterMap.mp h
  unfold Lexeme.answer? at ha
  split at ha
  · cases ha
  · rename_i hn _
    cases ha
    exact hn f rfl
  · cases ha

theorem isLegible_of_mem {cs : List Char} {t : Token} (h : .ok t ∈ answersOf cs)
    (finite : ∀ v, t = .real v → Float32.isFinite v = true) : t.IsLegible := by
  have spelled := isSpelled_of_mem h
  cases t with
  | real v => exact ⟨finite v rfl, (Number.isLiteral_iff.mp spelled).2⟩
  | identifier x => exact spelled
  | keyword _ | symbol _ => trivial
  | filler f => exact absurd h (filler_not_mem_answersOf f cs)
  | eot => exact spelled

namespace Program

section
variable {source source' : String}
  (same : (readings source').map Reading.answer = (readings source).map Reading.answer)
include same

theorem answersOf_of_same : answersOf source'.toList = answersOf source.toList := by
  rw [answers_readings, answers_readings] at same
  exact List.append_cancel_right same

theorem ofSource_of_same {p : Program} (h : ofSource source = .ok p) : ofSource source' = .ok p := by
  obtain ⟨w, hw, hp⟩ := tokens_of_source h
  exact (ofSource_eq_ok_iff ((answersOf_of_same same).trans hw)).mpr hp

theorem exists_error_of_same {e : SyntaxError} (h : ofSource source = .error e) :
    ∃ r ∈ readings source', ofSource source' = .error ⟨r.line, e.cause⟩ := by
  have hend : .ok .eot ∈ (readings source).map Reading.answer := by
    rw [answers_readings]
    exact List.mem_append_right _ (List.mem_singleton_self _)
  obtain ⟨i, -, r, -, hr, -, refused⟩ := read_of_answers (ofReadings_eq_error_iff.mp h) hend same
  exact ⟨r, List.mem_of_getElem? hr, ofReadings_eq_error_iff.mpr refused⟩

end

/-- Legible tokens with blanks between them are answered as they are, and then the end, all on the first
line. So it is with the tokens of a source that has no failures and none but finite numbers: the line is
the program that the source is, or is refused for the same cause. -/
theorem readings_oneLine :
    (∀ ts : List Token, (∀ t ∈ ts, t.IsLegible) →
      readings (Token.oneLine ts) = (ts ++ [Token.eot]).map fun t => ⟨1, .ok t⟩) ∧
    ∀ (source : String) (ts : List Token),
      (readings source).map Reading.answer = (ts ++ [Token.eot]).map .ok →
      (∀ v, .real v ∈ ts → Float32.isFinite v = true) →
      (readings (Token.oneLine ts)).map Reading.answer = (readings source).map Reading.answer ∧
      (∀ p, ofSource source = .ok p → ofSource (Token.oneLine ts) = .ok p) ∧
      ∀ e, ofSource source = .error e → ofSource (Token.oneLine ts) = .error ⟨1, e.cause⟩ := by
  have read {ts : List Token} (h : ∀ t ∈ ts, t.IsLegible) :
      readings (Token.oneLine ts) = (ts ++ [Token.eot]).map fun t => ⟨1, .ok t⟩ := by
    rw [readings_of_newline_not_mem (newline_not_mem_oneLine h), answersOf_oneLine h]
    simp
  refine ⟨fun ts h => read h, fun source ts answers finite => ?_⟩
  have spelled : answersOf source.toList = ts.map .ok := by
    rw [answers_readings, List.map_append] at answers
    exact List.append_cancel_right answers
  have legible : ∀ t ∈ ts, t.IsLegible := fun t ht =>
    isLegible_of_mem (spelled ▸ List.mem_map_of_mem ht) fun v hv => finite v (hv ▸ ht)
  have same : (readings (Token.oneLine ts)).map Reading.answer = (readings source).map Reading.answer := by
    rw [read legible, answers, List.map_map]
    rfl
  refine ⟨same, fun p hp => ofSource_of_same same hp, fun e he => ?_⟩
  obtain ⟨r, hr, refused⟩ := exists_error_of_same same he
  rw [read legible] at hr
  obtain ⟨t, -, rfl⟩ := List.mem_map.mp hr
  exact refused

/-- The blanks keep signs and words apart that would be others without them. A word that stands where
none can is refused on the second line of a source, and on the first line when all is on it. -/
theorem readings_oneLine_signs :
    readings "< = ELSE ELSEX / * 1" = [⟨1, .ok (.symbol .less)⟩, ⟨1, .ok (.symbol .equal)⟩,
      ⟨1, .ok (.keyword .else)⟩,
      ⟨1, .ok (.identifier "ELSEX")⟩, ⟨1, .ok (.symbol .slash)⟩, ⟨1, .ok (.symbol .star)⟩,
      ⟨1, .ok (.real .one)⟩, ⟨1, .ok .eot⟩] ∧
    (readings "HOME//\nOD").map Reading.answer = [.ok (.keyword .home), .ok (.keyword .od), .ok .eot] ∧
    ofSource "HOME//\nOD" = .error ⟨2, .unrecognizedConstruct (.keyword .od) .statement⟩ ∧
    ofSource "HOME OD" = .error ⟨1, .unrecognizedConstruct (.keyword .od) .statement⟩ := by
  have legible : ∀ t ∈ [Token.symbol .less, .symbol .equal, .keyword .else, .identifier "ELSEX",
      .symbol .slash, .symbol .star, .real .one], t.IsLegible := by
    have name : Lexeme.IsName "ELSEX" :=
      ⟨⟨'E', ['L', 'S', 'E', 'X'], rfl, rfl, List.all_eq_true.mp rfl⟩, by decide⟩
    have one : Float32.isFinite Number.one = true ∧ Number.isNegative Number.one = false := by decide +kernel
    simp [Token.IsLegible, name, one]
  have chars : Number.chars Number.one = ['1'] := by decide +kernel
  have text : Token.oneLine [.symbol .less, .symbol .equal, .keyword .else, .identifier "ELSEX",
      .symbol .slash, .symbol .star, .real .one] = "< = ELSE ELSEX / * 1" := by
    rw [← String.toList_inj, toList_oneLine]
    simp only [List.map_cons, List.map_nil, Token.text, Number.text, chars]
    rfl
  have lexed : lexemes "HOME//\nOD".toList = [⟨some (.keyword .home), ['H', 'O', 'M', 'E']⟩,
      ⟨some (.filler .lineComment), ['/', '/']⟩, ⟨some (.filler .newline), ['\n']⟩,
      ⟨some (.keyword .od), ['O', 'D']⟩] :=
    lexemes_of_scan rfl <| lexemes_of_scan rfl <| lexemes_of_scan rfl <| lexemes_of_scan rfl lexemes.eq_1
  have answers : (readings "HOME//\nOD").map Reading.answer =
      [.ok (.keyword .home), .ok (.keyword .od), .ok .eot] := by
    rw [readings, lexed]
    rfl
  have refused : ofSource "HOME//\nOD" = .error ⟨2, .unrecognizedConstruct (.keyword .od) .statement⟩ := by
    rw [ofSource, readings, lexed]
    rfl
  refine ⟨?_, answers, refused, ?_⟩
  · rw [← text]
    exact readings_oneLine.1 _ legible
  · obtain ⟨-, -, error⟩ := readings_oneLine.2 "HOME//\nOD" [.keyword .home, .keyword .od] answers (by simp)
    exact error _ refused

end Program

end Turtle
