import Turtle.Proofs.Number.RoundTrip
import Turtle.Reading

/-!
# What a text spells

The answers that a source gives to a text, by the stretch at its front. What separates tokens leaves no
answer, so that blanks and line ends may be passed over one by one.
-/

namespace Turtle

namespace Lexeme

def answer? (l : Lexeme) : Option (Except String Token) :=
  match l.token? with
  | some (.filler _) => none
  | some t => some (.ok t)
  | none => some (.error (.ofList l.text))

theorem answer?_ofWord {s : String} {w : List Char} :
    answer? ⟨some (.ofWord s), w⟩ = some (.ok (.ofWord s)) := by
  unfold Token.ofWord
  split <;> rfl

end Lexeme

theorem readingsOf_cons (line : Nat) (l : Lexeme) (ls : List Lexeme) : readingsOf line (l :: ls) =
    (l.answer?.map (Reading.mk (line + l.lineEnds))).toList ++ readingsOf (line + l.lineEnds) ls := by
  obtain ⟨t?, text⟩ := l
  cases t? with
  | none => rfl
  | some t => cases t <;> rfl

theorem answers_readingsOf (line : Nat) (ls : List Lexeme) :
    (readingsOf line ls).map Reading.answer = ls.filterMap Lexeme.answer? ++ [.ok .eot] := by
  induction ls generalizing line with
  | nil => rfl
  | cons l ls ih =>
    rw [readingsOf_cons, List.map_append, ih, List.filterMap_cons]
    cases l.answer? <;> rfl

/-- The answers of a source with this text, up to its end. -/
def answersOf (cs : List Char) : List (Except String Token) := (lexemes cs).filterMap Lexeme.answer?

theorem answers_readings (source : String) :
    (readings source).map Reading.answer = answersOf source.toList ++ [.ok .eot] :=
  answers_readingsOf 1 _

theorem answersOf_nil : answersOf [] = [] := by
  rw [answersOf, lexemes]; rfl

theorem answersOf_cons (c : Char) (cs : List Char) :
    answersOf (c :: cs) = (Lexeme.scan c cs).1.answer?.toList ++ answersOf (Lexeme.scan c cs).2 := by
  rw [answersOf, lexemes, List.filterMap_cons]
  cases (Lexeme.scan c cs).1.answer? <;> rfl

section
variable {c : Char} {cs r : List Char} {l : Lexeme}

theorem answersOf_scan {a : Except String Token} (h : Lexeme.scan c cs = (l, r)) (ha : l.answer? = some a) :
    answersOf (c :: cs) = a :: answersOf r := by
  rw [answersOf_cons, h, ha]; rfl

theorem answersOf_filler (h : Lexeme.scan c cs = (l, r)) (ha : l.answer? = none) :
    answersOf (c :: cs) = answersOf r := by
  rw [answersOf_cons, h, ha]; rfl

end

/-! ## Where a word ends -/

/-- What stands here ends a word, a number or a sign: a blank, a closing parenthesis,
a line end or nothing. -/
def Bounded (r : List Char) : Prop := ∀ c ∈ r.head?, c = ' ' ∨ c = ')' ∨ c = '\n'

namespace Bounded

theorem cons {c : Char} (h : c = ' ' ∨ c = ')' ∨ c = '\n') (r : List Char) : Bounded (c :: r) := by
  intro d hd
  obtain rfl := Option.some.inj hd
  exact h

variable {r : List Char} (h : Bounded r)
include h

theorem word : ∀ c ∈ r.head?, Lexeme.isWordRest c = false := by
  intro c hc
  rcases h c hc with rfl | rfl | rfl <;> decide

theorem number : Decimal.Ends r := by
  intro c hc
  rcases h c hc with rfl | rfl | rfl <;> decide

end Bounded

namespace Lexeme

/-! ## Separators -/

theorem scan_blank {c : Char} (h : isBlank c = true) (cs : List Char) :
    scan c cs = (⟨some (.filler .blank), c :: cs.takeWhile isBlank⟩, cs.dropWhile isBlank) := by
  simp only [isBlank, Bool.or_eq_true, decide_eq_true_eq] at h
  rcases h with ((rfl | rfl) | rfl) | rfl <;> rfl

theorem answersOf_blank {c : Char} (h : isBlank c = true) (cs : List Char) :
    answersOf (c :: cs) = answersOf cs := by
  rw [answersOf_filler (scan_blank h cs) rfl]
  cases cs with
  | nil => rfl
  | cons c' cs =>
    by_cases h' : isBlank c' = true
    · rw [List.dropWhile_cons_of_pos h', answersOf_filler (scan_blank h' cs) rfl]
    · rw [List.dropWhile_cons_of_neg h']

theorem answersOf_space (cs : List Char) : answersOf (' ' :: cs) = answersOf cs := answersOf_blank rfl cs

theorem answersOf_newline (cs : List Char) : answersOf ('\n' :: cs) = answersOf cs :=
  answersOf_filler (l := ⟨some (.filler .newline), ['\n']⟩) rfl rfl

theorem answersOf_replicate (n : Nat) (cs : List Char) :
    answersOf (.replicate n ' ' ++ cs) = answersOf cs := by
  induction n with
  | zero => rfl
  | succ n ih => rw [List.replicate_succ, List.cons_append, answersOf_space, ih]

/-! ## Words -/

theorem scan_word {c : Char} (h : isWordStart c = true) (cs : List Char) :
    scan c cs = (⟨some (.ofWord (.ofList (c :: cs.takeWhile isWordRest))), c :: cs.takeWhile isWordRest⟩,
      cs.dropWhile isWordRest) := by
  rw [scan, word?, if_pos h]
  rfl

theorem answersOf_word {c : Char} {cs r : List Char} (hc : isWordStart c = true)
    (hcs : ∀ d ∈ cs, isWordRest d = true) (hr : ∀ d ∈ r.head?, isWordRest d = false) :
    answersOf (c :: cs ++ r) = .ok (.ofWord (.ofList (c :: cs))) :: answersOf r := by
  have scan := scan_word hc (cs ++ r)
  rw [takeWhile_append_stop hcs hr, dropWhile_append_stop hcs hr] at scan
  exact answersOf_scan scan answer?_ofWord

/-! ## Signs -/

theorem answersOf_lparen (cs : List Char) : answersOf ('(' :: cs) = .ok (.symbol .lparen) :: answersOf cs :=
  answersOf_scan (l := ⟨some (.symbol .lparen), ['(']⟩) rfl rfl

theorem answersOf_rparen (cs : List Char) : answersOf (')' :: cs) = .ok (.symbol .rparen) :: answersOf cs :=
  answersOf_scan (l := ⟨some (.symbol .rparen), [')']⟩) rfl rfl

theorem answersOf_minus (cs : List Char) : answersOf ('-' :: cs) = .ok (.symbol .minus) :: answersOf cs :=
  answersOf_scan (l := ⟨some (.symbol .minus), ['-']⟩) rfl rfl

theorem answersOf_symbol (s : Symbol) {r : List Char} (hr : Bounded r) :
    answersOf (s.text.toList ++ r) = .ok (.symbol s) :: answersOf r := by
  cases r with
  | nil => cases s <;> exact answersOf_scan (l := ⟨some (.symbol _), _⟩) rfl rfl
  | cons c r =>
    rcases hr c rfl with rfl | rfl | rfl <;> cases s <;>
      exact answersOf_scan (l := ⟨some (.symbol _), _⟩) rfl rfl

/-! ## Numbers -/

theorem le_toNat_of_isAlpha {c : Char} (h : c.isAlpha = true) : 65 ≤ c.toNat := by
  rcases Bool.or_eq_true_iff.mp h with h | h
  · exact UInt32.le_iff_toNat_le.mp (of_decide_eq_true h).1
  · exact Nat.le_trans (by decide)
      (UInt32.le_iff_toNat_le.mp (of_decide_eq_true (Bool.and_eq_true_iff.mp h).1))

theorem word?_digit {c : Char} (h : c.isDigit = true) (cs : List Char) : word? (c :: cs) = none := by
  have hc : ¬ isWordStart c = true := by
    intro hs
    have hle : c.toNat ≤ 57 := (Char.isDigit_iff_toNat.mp h).2
    rcases Bool.or_eq_true_iff.mp hs with hs | hs
    · have := le_toNat_of_isAlpha hs
      omega
    · cases of_decide_eq_true hs
      cases h
  rw [word?, if_neg hc]

theorem filler?_digit {c : Char} (h : c.isDigit = true) (cs : List Char) : filler? (c :: cs) = none := by
  have apart {d : Char} (hd : d.isDigit = false) : c ≠ d := fun he => by rw [he, hd] at h; cases h
  unfold filler?
  split
  · rename_i he; cases he
  · rename_i he; exact absurd (List.cons.inj he).1 (apart rfl)
  · rename_i he; exact absurd (List.cons.inj he).1 (apart rfl)
  · rename_i he; exact absurd (List.cons.inj he).1 (apart rfl)
  · rename_i he
    obtain ⟨rfl, rfl⟩ := List.cons.inj he
    have hb : isBlank c = false := by
      simp only [isBlank, Bool.or_eq_false_iff, decide_eq_false_iff_not]
      exact ⟨⟨⟨apart rfl, apart rfl⟩, apart rfl⟩, apart rfl⟩
    rw [hb]; rfl

theorem scan_digit {c : Char} (h : c.isDigit = true) {cs r : List Char} {n : Numeral}
    (hn : Numeral.scan? (c :: cs) = some (n, r)) :
    scan c cs = (⟨(Number.ofChars n.text).toOption.map .real, n.text⟩, r) := by
  rw [scan, word?_digit h, filler?_digit h, numeral?, hn]
  rfl

theorem answersOf_number {m : Magnitude} (h : m.isFinite = true) {r : List Char} (hr : Decimal.Ends r) :
    answersOf (Number.chars (m.toNumber false) ++ r) = .ok (.real (m.toNumber false)) :: answersOf r := by
  have back := Number.ofChars_chars (m.toNumber false)
  have scan := Decimal.scan?_text (d := Decimal.shortest m) hr
  obtain ⟨c, cs, hc, hd⟩ := (Decimal.shortest m).exists_digit_text
  rw [Number.chars_toNumber, if_pos h] at back ⊢
  rw [hc, List.cons_append] at scan ⊢
  apply answersOf_scan (scan_digit hd scan)
  rw [Decimal.text_numeral, back]
  rfl

end Lexeme

end Turtle
