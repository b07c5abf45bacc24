import Turtle.Token

/-!
# Lexemes

`lexemes` cuts a source into stretches that spell something. `scan` takes the longest one at the front:
at most one of its four alternatives begins there, but for a slash, which may open a comment or stand
for itself. `flatMap_text_lexemes`: the lexemes are the source, without gap or overlap.
-/

namespace Turtle

/-- A stretch of source and the token that it spells; `none` for a character where no token begins. -/
structure Lexeme where
  token? : Option Token
  text : List Char
deriving DecidableEq

namespace Lexeme

/-! ## Character classes -/

def isBlank (c : Char) : Bool := c = ' ' || c = '\t' || c = '\r' || c = '\x0c'

def isWordStart (c : Char) : Bool := c.isAlpha || c = '_'

def isWordRest (c : Char) : Bool := c.isAlphanum || c = '_'

def isLineEnd (c : Char) : Bool := c = '\n' || c = '\r'

/-! ## Comments -/

def splitClose : List Char → Option (List Char × List Char)
  | '*' :: '/' :: r => some (['*', '/'], r)
  | c :: r => (splitClose r).map fun s => (c :: s.1, s.2)
  | [] => none

theorem splitClose_append {cs u r : List Char} (h : splitClose cs = some (u, r)) : u ++ r = cs := by
  induction cs using splitClose.induct generalizing u r with
  | case1 t =>
    obtain ⟨rfl, rfl⟩ : ['*', '/'] = u ∧ t = r := by simpa [splitClose] using h
    rfl
  | case2 c t _ ih =>
    rw [splitClose] at h
    · obtain ⟨s, hs, he⟩ := Option.map_eq_some_iff.mp h
      obtain ⟨rfl, rfl⟩ := Prod.mk.inj he
      simp [ih hs]
    · assumption
  | case3 => simp [splitClose] at h

/-! ## One lexeme -/

def word? : List Char → Option (Lexeme × List Char)
  | [] => none
  | c :: cs =>
    if isWordStart c then
      let w := c :: cs.takeWhile isWordRest
      some (⟨some (.ofWord (.ofList w)), w⟩, cs.dropWhile isWordRest)
    else none

/-- What separates tokens. A block comment that is never closed is none. -/
def filler? : List Char → Option (Lexeme × List Char)
  | [] => none
  | '\n' :: cs => some (⟨some (.filler .newline), ['\n']⟩, cs)
  | '/' :: '/' :: cs =>
    some (⟨some (.filler .lineComment), '/' :: '/' :: cs.takeWhile (!isLineEnd ·)⟩,
      cs.dropWhile (!isLineEnd ·))
  | '/' :: '*' :: cs =>
    (splitClose cs).map fun s => (⟨some (.filler .blockComment), '/' :: '*' :: s.1⟩, s.2)
  | c :: cs =>
    if isBlank c then some (⟨some (.filler .blank), c :: cs.takeWhile isBlank⟩, cs.dropWhile isBlank)
    else none

def numeral? (cs : List Char) : Option (Lexeme × List Char) :=
  (Numeral.scan? cs).map fun s => (⟨(Number.ofChars s.1.text).toOption.map .real, s.1.text⟩, s.2)

def symbol? (cs : List Char) : Option (Lexeme × List Char) :=
  (Symbol.all.find? fun s => s.text.toList.isPrefixOf cs).map fun s =>
    (⟨some (.symbol s), s.text.toList⟩, cs.drop s.text.toList.length)

def scan (c : Char) (cs : List Char) : Lexeme × List Char :=
  (word? (c :: cs) <|> filler? (c :: cs) <|> numeral? (c :: cs) <|> symbol? (c :: cs)).getD (⟨none, [c]⟩, cs)

/-! ## A lexeme is a nonempty front of the text -/

def Cuts (cs : List Char) (s : Lexeme × List Char) : Prop := s.1.text ++ s.2 = cs ∧ s.1.text ≠ []

theorem cuts_word? {cs : List Char} {s : Lexeme × List Char} (h : word? cs = some s) : Cuts cs s := by
  unfold word? at h
  split at h
  · exact absurd h (by simp)
  · split at h
    · obtain rfl := Option.some.inj h
      simp [Cuts]
    · exact absurd h (by simp)

theorem cuts_filler? {cs : List Char} {s : Lexeme × List Char} (h : filler? cs = some s) : Cuts cs s := by
  unfold filler? at h
  split at h
  · exact absurd h (by simp)
  · obtain rfl := Option.some.inj h
    simp [Cuts]
  · obtain rfl := Option.some.inj h
    simp [Cuts]
  · obtain ⟨t, ht, rfl⟩ := Option.map_eq_some_iff.mp h
    simp [Cuts, splitClose_append ht]
  · split at h
    · obtain rfl := Option.some.inj h
      simp [Cuts]
    · exact absurd h (by simp)

theorem cuts_numeral? {cs : List Char} {s : Lexeme × List Char} (h : numeral? cs = some s) : Cuts cs s := by
  obtain ⟨t, ht, rfl⟩ := Option.map_eq_some_iff.mp h
  exact ⟨Numeral.text_append_of_scan? ht, Numeral.text_ne_nil_of_scan? ht⟩

theorem cuts_symbol? {cs : List Char} {s : Lexeme × List Char} (h : symbol? cs = some s) : Cuts cs s := by
  obtain ⟨y, hy, rfl⟩ := Option.map_eq_some_iff.mp h
  have hp : y.text.toList.isPrefixOf cs = true := by simpa using List.find?_some hy
  obtain ⟨r, rfl⟩ := List.isPrefixOf_iff_prefix.mp hp
  exact ⟨by simp, y.toList_text_ne_nil⟩

theorem cuts_scan (c : Char) (cs : List Char) : Cuts (c :: cs) (scan c cs) := by
  unfold scan
  cases hw : word? (c :: cs) with
  | some s => exact cuts_word? hw
  | none =>
    cases hf : filler? (c :: cs) with
    | some s => exact cuts_filler? hf
    | none =>
      cases hn : numeral? (c :: cs) with
      | some s => exact cuts_numeral? hn
      | none =>
        cases hs : symbol? (c :: cs) with
        | some s => exact cuts_symbol? hs
        | none => exact ⟨rfl, List.cons_ne_nil _ _⟩

theorem length_scan_lt (c : Char) (cs : List Char) : (scan c cs).2.length < (c :: cs).length := by
  have h := congrArg List.length (cuts_scan c cs).1
  have := List.length_pos_iff.mpr (cuts_scan c cs).2
  rw [List.length_append] at h
  omega

end Lexeme

/-! ## All lexemes -/

def lexemes : List Char → List Lexeme
  | [] => []
  | c :: cs => (Lexeme.scan c cs).1 :: lexemes (Lexeme.scan c cs).2
termination_by cs => cs.length
decreasing_by exact Lexeme.length_scan_lt c cs

theorem lexemes_scan {c : Char} {cs r : List Char} {l : Lexeme} (h : Lexeme.scan c cs = (l, r)) :
    lexemes (c :: cs) = l :: lexemes r := by
  rw [lexemes, h]

theorem lexemes_of_scan {c : Char} {cs r : List Char} {l : Lexeme} {ls : List Lexeme}
    (h : Lexeme.scan c cs = (l, r)) (hr : lexemes r = ls) : lexemes (c :: cs) = l :: ls :=
  hr ▸ lexemes_scan h

theorem flatMap_text_lexemes (cs : List Char) : (lexemes cs).flatMap Lexeme.text = cs := by
  induction cs using lexemes.induct with
  | case1 => simp [lexemes]
  | case2 c cs ih => rw [lexemes, List.flatMap_cons, ih, (Lexeme.cuts_scan c cs).1]

end Turtle
