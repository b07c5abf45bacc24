import Mathlib.Computability.Language
import Turtle.Proofs.Number.Literal

/-!
# Patterns

The texts that tokens can have, as languages over characters, and the token that each of them is. Nothing here
says how a text is searched for them.
-/

namespace Turtle

open scoped Computability

def single (p : Char → Bool) : Language Char := {w | ∃ c, w = [c] ∧ p c = true}

namespace Pattern

def digits : Language Char := single Char.isDigit * (single Char.isDigit)∗

def exponent : Language Char :=
  single (fun c => c = 'e' || c = 'E') * (1 + single fun c => c = '+' || c = '-') * digits

def stars : Language Char := single (· = '*') * (single (· = '*'))∗

/-- A stretch of a comment that the slash behind it cannot close: behind its stars
stands one more character. -/
def piece : Language Char := single (· ≠ '*') + stars * single fun c => c ≠ '*' && c ≠ '/'

def closing : Language Char := piece∗ * stars * {['/']}

end Pattern

inductive Pattern
  | number | fraction
  | keyword (word : Keyword)
  | identifier
  | symbol (sign : Symbol)
  | lineComment | blockComment | newline | blank

namespace Pattern

def language : Pattern → Language Char
  | .number => digits * (1 + single (· = '.') * (single Char.isDigit)∗) * (1 + exponent)
  | .fraction => single (· = '.') * digits * (1 + exponent)
  | .keyword k => {k.text.toList}
  | .identifier => single Lexeme.isWordStart * (single Lexeme.isWordRest)∗
  | .symbol s => {s.text.toList}
  | .lineComment => {['/', '/']} * (single (!Lexeme.isLineEnd ·))∗
  | .blockComment => {['/', '*']} * closing
  | .newline => {['\n']}
  | .blank => single Lexeme.isBlank * (single Lexeme.isBlank)∗

/-- What a text of this pattern is; `none` for a number that could not be read. -/
def token? : Pattern → List Char → Option Token
  | .number, w | .fraction, w => (Number.ofChars w).toOption.map .real
  | .keyword k, _ => some (.keyword k)
  | .identifier, w => some (.identifier (.ofList w))
  | .symbol s, _ => some (.symbol s)
  | .lineComment, _ => some (.filler .lineComment)
  | .blockComment, _ => some (.filler .blockComment)
  | .newline, _ => some (.filler .newline)
  | .blank, _ => some (.filler .blank)

/-! ## Texts by their characters -/

section
variable {p : Char → Bool} {w : List Char} {l : Language Char}

theorem mem_single_mul : w ∈ single p * l ↔ ∃ c v, w = c :: v ∧ p c = true ∧ v ∈ l := by
  constructor
  · intro h
    obtain ⟨u, ⟨c, rfl, hc⟩, v, hv, rfl⟩ := Language.mem_mul.mp h
    exact ⟨c, v, rfl, hc, hv⟩
  · intro h
    obtain ⟨c, v, rfl, hc, hv⟩ := h
    exact Language.mem_mul.mpr ⟨[c], ⟨c, rfl, hc⟩, v, hv, rfl⟩

theorem mem_text_mul {u : List Char} : w ∈ ({u} : Language Char) * l ↔ ∃ v ∈ l, w = u ++ v := by
  constructor
  · intro h
    obtain ⟨_, rfl, v, hv, rfl⟩ := Language.mem_mul.mp h
    exact ⟨v, hv, rfl⟩
  · intro h
    obtain ⟨v, hv, rfl⟩ := h
    exact Language.mem_mul.mpr ⟨u, rfl, v, hv, rfl⟩

theorem mem_many : w ∈ (single p)∗ ↔ ∀ c ∈ w, p c = true := by
  constructor
  · intro h c hc
    obtain ⟨parts, rfl, hp⟩ := Language.mem_kstar.mp h
    obtain ⟨u, hu, hc⟩ := List.mem_flatten.mp hc
    obtain ⟨d, rfl, hd⟩ := hp u hu
    rwa [List.mem_singleton.mp hc]
  · intro h
    induction w with
    | nil => exact Language.nil_mem_kstar _
    | cons c w ih =>
      rw [List.forall_mem_cons] at h
      obtain ⟨parts, rfl, hp⟩ := Language.mem_kstar.mp (ih h.2)
      exact Language.mem_kstar.mpr ⟨[c] :: parts, rfl, List.forall_mem_cons.mpr ⟨⟨c, rfl, h.1⟩, hp⟩⟩

theorem mem_some : w ∈ single p * (single p)∗ ↔ w ≠ [] ∧ ∀ c ∈ w, p c = true := by
  rw [mem_single_mul]
  constructor
  · intro h
    obtain ⟨c, v, rfl, hc, hv⟩ := h
    exact ⟨List.cons_ne_nil _ _, List.forall_mem_cons.mpr ⟨hc, mem_many.mp hv⟩⟩
  · intro h
    obtain ⟨hne, h⟩ := h
    cases w with
    | nil => exact absurd rfl hne
    | cons c v =>
      rw [List.forall_mem_cons] at h
      exact ⟨c, v, rfl, h.1, mem_many.mpr h.2⟩

theorem mem_optional : w ∈ 1 + l ↔ w = [] ∨ w ∈ l := Iff.rfl

end

/-! ## Numbers -/

theorem mem_digits {w : List Char} : w ∈ digits ↔ Numeral.IsDigits w := mem_some

theorem mem_exponent {w : List Char} : w ∈ exponent ↔ Numeral.IsExponent w := by
  rw [exponent, mul_assoc, mem_single_mul]
  constructor
  · intro h
    obtain ⟨mark, v, rfl, hm, hv⟩ := h
    obtain ⟨sign, hs, ds, hd, rfl⟩ := Language.mem_mul.mp hv
    refine ⟨mark, sign, ds, rfl, by simpa using hm, ?_, mem_digits.mp hd⟩
    rcases hs with rfl | ⟨c, rfl, hc⟩
    · exact .inl rfl
    · obtain rfl | rfl : c = '+' ∨ c = '-' := by simpa using hc
      · exact .inr (.inl rfl)
      · exact .inr (.inr rfl)
  · intro h
    obtain ⟨mark, sign, ds, rfl, hm, hs, hd⟩ := h
    refine ⟨mark, _, rfl, by simpa using hm, Language.mem_mul.mpr ⟨sign, ?_, ds, mem_digits.mpr hd, rfl⟩⟩
    rcases hs with rfl | rfl | rfl
    · exact .inl rfl
    · exact .inr ⟨'+', rfl, rfl⟩
    · exact .inr ⟨'-', rfl, rfl⟩

theorem mem_point {w : List Char} : w ∈ single (· = '.') * (single Char.isDigit)∗ ↔ Numeral.IsPoint w := by
  rw [mem_single_mul]
  constructor
  · intro h
    obtain ⟨c, ds, rfl, hc, hd⟩ := h
    obtain rfl := of_decide_eq_true hc
    exact ⟨ds, rfl, mem_many.mp hd⟩
  · intro h
    obtain ⟨ds, rfl, hd⟩ := h
    exact ⟨'.', ds, rfl, rfl, mem_many.mpr hd⟩

theorem mem_exponent? {w : List Char} : w ∈ 1 + exponent ↔ w = [] ∨ Numeral.IsExponent w := by
  rw [mem_optional, mem_exponent]

theorem mem_number_or_fraction {w : List Char} :
    w ∈ number.language ∨ w ∈ fraction.language ↔ ∃ n : Numeral, n.IsWritten ∧ n.text = w := by
  constructor
  · rintro (h | h)
    · obtain ⟨v, hv, ex, hex, rfl⟩ := Language.mem_mul.mp h
      obtain ⟨ds, hds, pt, hpt, rfl⟩ := Language.mem_mul.mp hv
      rw [mem_digits] at hds
      rw [mem_optional, mem_point] at hpt
      exact ⟨⟨ds, pt, ex⟩, ⟨hds.2, hpt, mem_exponent?.mp hex, fun he => absurd he hds.1⟩, rfl⟩
    · obtain ⟨v, hv, ex, hex, rfl⟩ := Language.mem_mul.mp h
      obtain ⟨c, ds, rfl, hc, hds⟩ := mem_single_mul.mp hv
      obtain rfl := of_decide_eq_true hc
      rw [mem_digits] at hds
      have := List.length_pos_iff.mpr hds.1
      exact ⟨⟨[], '.' :: ds, ex⟩, ⟨by simp, .inr ⟨ds, rfl, hds.2⟩, mem_exponent?.mp hex,
        fun _ => by rw [List.length_cons]; omega⟩, rfl⟩
  · rintro ⟨⟨ds, pt, ex⟩, ⟨hds, hpt, hex, hd⟩, rfl⟩
    by_cases hw : ds = []
    · obtain rfl := hw
      have hd := hd rfl
      rcases hpt with rfl | ⟨fs, rfl, hfs⟩
      · simp at hd
      · have hne : fs ≠ [] := by
          rintro rfl
          simp at hd
        exact .inr (Language.mem_mul.mpr
          ⟨_, mem_single_mul.mpr ⟨'.', fs, rfl, rfl, mem_digits.mpr ⟨hne, hfs⟩⟩, ex,
          mem_exponent?.mpr hex, rfl⟩)
    · refine .inl (Language.mem_mul.mpr
        ⟨_, Language.mem_mul.mpr ⟨ds, mem_digits.mpr ⟨hw, hds⟩, pt, ?_, rfl⟩, ex,
        mem_exponent?.mpr hex, rfl⟩)
      rw [mem_optional, mem_point]
      exact hpt

theorem isWritten_of_number {p : Pattern} (hp : p = .number ∨ p = .fraction) {w : List Char}
    (h : w ∈ p.language) :
    ∃ n : Numeral, n.IsWritten ∧ n.text = w := by
  rcases hp with rfl | rfl
  · exact mem_number_or_fraction.mp (.inl h)
  · exact mem_number_or_fraction.mp (.inr h)

/-! ## Words -/

theorem mem_identifier {w : List Char} : w ∈ identifier.language ↔
    ∃ c cs, w = c :: cs ∧ Lexeme.isWordStart c = true ∧ ∀ d ∈ cs, Lexeme.isWordRest d = true := by
  rw [language, mem_single_mul]
  constructor
  · intro h
    obtain ⟨c, cs, rfl, hc, hcs⟩ := h
    exact ⟨c, cs, rfl, hc, mem_many.mp hcs⟩
  · intro h
    obtain ⟨c, cs, rfl, hc, hcs⟩ := h
    exact ⟨c, cs, rfl, hc, mem_many.mpr hcs⟩

theorem identifier_of_keyword {k : Keyword} {w : List Char} (h : w ∈ (keyword k).language) :
    w ∈ identifier.language := by
  obtain rfl : w = k.text.toList := h
  rw [mem_identifier]
  cases k <;> exact ⟨_, _, rfl, by decide, List.all_eq_true.mp (by decide)⟩

/-! ## Block comments -/

theorem mem_stars {w : List Char} : w ∈ stars ↔ w ≠ [] ∧ ∀ c ∈ w, c = '*' := by
  rw [stars, mem_some]
  simp

theorem mem_piece {w : List Char} : w ∈ piece ↔
    (∃ c, w = [c] ∧ c ≠ '*') ∨ ∃ ss c, w = ss ++ [c] ∧ ss ∈ stars ∧ c ≠ '*' ∧ c ≠ '/' := by
  constructor
  · rintro (⟨c, rfl, hc⟩ | h)
    · exact .inl ⟨c, rfl, of_decide_eq_true hc⟩
    · obtain ⟨ss, hs, _, ⟨c, rfl, hc⟩, rfl⟩ := Language.mem_mul.mp h
      exact .inr ⟨ss, c, rfl, hs, by simpa using hc⟩
  · rintro (⟨c, rfl, hc⟩ | ⟨ss, c, rfl, hs, hc⟩)
    · exact .inl ⟨c, rfl, decide_eq_true hc⟩
    · exact .inr (Language.mem_mul.mpr ⟨ss, hs, [c], ⟨c, rfl, by simpa using hc⟩, rfl⟩)

theorem mem_closing {w : List Char} : w ∈ closing ↔
    ∃ (parts : List (List Char)) (ss : List Char), (∀ u ∈ parts, u ∈ piece) ∧ ss ∈ stars ∧
    w = parts.flatten ++ (ss ++ ['/']) := by
  rw [closing, mul_assoc]
  constructor
  · intro h
    obtain ⟨_, hb, _, ht, rfl⟩ := Language.mem_mul.mp h
    obtain ⟨parts, rfl, hp⟩ := Language.mem_kstar.mp hb
    obtain ⟨ss, hs, _, rfl, rfl⟩ := Language.mem_mul.mp ht
    exact ⟨parts, ss, hp, hs, rfl⟩
  · intro h
    obtain ⟨parts, ss, hp, hs, rfl⟩ := h
    exact Language.mem_mul.mpr ⟨_, Language.mem_kstar.mpr ⟨parts, rfl, hp⟩, _,
      Language.mem_mul.mpr ⟨ss, hs, ['/'], rfl, rfl⟩, rfl⟩

theorem closing_cons {c : Char} {w : List Char} (hw : w ∈ closing) (h : c = '*' → w.head? ≠ some '/') :
    c :: w ∈ closing := by
  obtain ⟨parts, ss, hp, hs, rfl⟩ := mem_closing.mp hw
  by_cases hc : c = '*'
  · obtain rfl := hc
    have star {ts : List Char} (ht : ∀ d ∈ ts, d = '*') : '*' :: ts ∈ stars :=
      mem_stars.mpr ⟨List.cons_ne_nil _ _, List.forall_mem_cons.mpr ⟨rfl, ht⟩⟩
    cases parts with
    | nil => exact mem_closing.mpr ⟨[], '*' :: ss, hp, star (mem_stars.mp hs).2, rfl⟩
    | cons part parts =>
      -- the star goes to the front of the first piece
      obtain ⟨hfirst, hrest⟩ := List.forall_mem_cons.mp hp
      have first : '*' :: part ∈ piece := by
        rcases mem_piece.mp hfirst with ⟨d, rfl, hd⟩ | ⟨ts, d, rfl, ht, hd⟩
        · have hslash : d ≠ '/' := fun he => h rfl (by rw [he]; rfl)
          exact mem_piece.mpr (.inr ⟨['*'], d, rfl, star (by simp), hd, hslash⟩)
        · exact mem_piece.mpr (.inr ⟨'*' :: ts, d, rfl, star (mem_stars.mp ht).2, hd⟩)
      exact mem_closing.mpr ⟨('*' :: part) :: parts, ss, List.forall_mem_cons.mpr ⟨first, hrest⟩, hs, rfl⟩
  · have first : [c] ∈ piece := mem_piece.mpr (.inl ⟨c, rfl, hc⟩)
    exact mem_closing.mpr ⟨[c] :: parts, ss, List.forall_mem_cons.mpr ⟨first, hp⟩, hs, rfl⟩

open Lexeme

theorem splitClose_cons {c : Char} {cs : List Char} (h : c = '*' → cs.head? ≠ some '/') :
    splitClose (c :: cs) = (splitClose cs).map fun s => (c :: s.1, s.2) := by
  rw [splitClose]
  rintro r rfl rfl
  exact h rfl rfl

theorem closing_of_splitClose {cs w r : List Char} (h : splitClose cs = some (w, r)) : w ∈ closing := by
  induction cs using splitClose.induct generalizing w r with
  | case1 t =>
    obtain ⟨rfl, -⟩ : ['*', '/'] = w ∧ t = r := by simpa [splitClose] using h
    exact mem_closing.mpr ⟨[], ['*'], by simp, mem_stars.mpr (by simp), rfl⟩
  | case2 c t hn ih =>
    rw [splitClose.eq_2 _ _ hn] at h
    obtain ⟨⟨w', r'⟩, hs, he⟩ := Option.map_eq_some_iff.mp h
    obtain ⟨rfl, rfl⟩ := Prod.mk.inj he
    have ht := splitClose_append hs
    refine closing_cons (ih hs) fun hc hw => ?_
    obtain ⟨v, rfl⟩ := List.head?_eq_some_iff.mp hw
    exact hn _ hc ht.symm
  | case3 => simp [splitClose] at h

theorem splitClose_stars {ss cs : List Char} (hs : ∀ c ∈ ss, c = '*') (h : cs.head? ≠ some '/') :
    splitClose (ss ++ cs) = (splitClose cs).map fun s => (ss ++ s.1, s.2) := by
  induction ss with
  | nil => exact Option.map_id'.symm
  | cons c ss ih =>
    obtain ⟨-, hss⟩ := List.forall_mem_cons.mp hs
    have head : (ss ++ cs).head? ≠ some '/' := by
      cases ss with
      | nil => exact h
      | cons d ss =>
        obtain rfl := hss d List.mem_cons_self
        simp
    rw [List.cons_append, splitClose_cons fun _ => head, ih hss, Option.map_map]
    rfl

theorem splitClose_of_closing {w : List Char} (h : w ∈ closing) (r : List Char) :
    splitClose (w ++ r) = some (w, r) := by
  obtain ⟨parts, ss, hp, hs, rfl⟩ := mem_closing.mp h
  clear h
  induction parts with
  | nil =>
    obtain ⟨hne, hss⟩ := mem_stars.mp hs
    obtain ⟨ts, t, rfl⟩ := (List.eq_nil_or_concat' ss).resolve_left hne
    obtain ⟨hts, ht⟩ := List.forall_mem_append.mp hss
    obtain rfl := ht t List.mem_cons_self
    have last : splitClose ('*' :: '/' :: r) = some (['*', '/'], r) := by rw [splitClose]
    have head : ('*' :: '/' :: r).head? ≠ some '/' := by simp
    have stars := splitClose_stars hts head
    rw [last] at stars
    simpa using stars
  | cons part parts ih =>
    obtain ⟨hfirst, hrest⟩ := List.forall_mem_cons.mp hp
    have rest := ih hrest
    rw [List.flatten_cons, List.append_assoc part, List.append_assoc part]
    rcases mem_piece.mp hfirst with ⟨c, rfl, hc⟩ | ⟨ts, c, rfl, ht, hc, hslash⟩
    · rw [List.singleton_append, splitClose_cons fun he => absurd he hc, rest]
      rfl
    · rw [List.append_assoc ts, List.append_assoc ts, List.singleton_append,
        splitClose_stars (mem_stars.mp ht).2 (by simpa using hslash),
        splitClose_cons fun he => absurd he hc, rest]
      rfl

end Pattern

end Turtle
