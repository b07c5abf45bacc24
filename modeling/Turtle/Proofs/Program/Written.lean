import Mathlib.Data.List.Forall2
import Turtle.Program.Text
import Turtle.Proofs.Lexing.Spelling
import Turtle.Proofs.Program.Reread

/-!
# The tokens of a text

A source with the text of a program answers the tokens of the program (`answersOf_chars`). Wherever a
word ends in that text there is a blank, a closing parenthesis or the end of the line, and none of these
goes on with it.
-/

namespace Turtle

/-- A source answers these tokens to these characters, whatever the text that goes on behind them. -/
def Spells (cs : List Char) (ts : List Token) : Prop :=
  ∀ r, Bounded r → answersOf (cs ++ r) = ts.map .ok ++ answersOf r

def SpellsLines (ls : List (List Char)) (ts : List Token) : Prop :=
  ∀ r, answersOf (ls.flatMap (· ++ ['\n']) ++ r) = ts.map .ok ++ answersOf r

/-! ## Words -/

namespace Spells

theorem word {s : String} (h : ∃ c cs, s.toList = c :: cs ∧ Lexeme.isWordStart c = true ∧
    ∀ d ∈ cs, Lexeme.isWordRest d = true) : Spells s.toList [.ofWord s] := by
  intro r hr
  obtain ⟨c, cs, hs, hc, hcs⟩ := h
  have answer := Lexeme.answersOf_word hc hcs hr.word
  rw [← hs, String.ofList_toList] at answer
  exact answer

theorem name {x : String} (h : Lexeme.IsName x) : Spells x.toList [.identifier x] := by
  have spells := word h.isWord
  rw [Token.ofWord, h.free] at spells
  exact spells

theorem keyword (k : Keyword) : Spells (Stmt.word k) [.keyword k] := by
  have isWord : ∃ c cs, k.text.toList = c :: cs ∧ Lexeme.isWordStart c = true ∧
      ∀ d ∈ cs, Lexeme.isWordRest d = true := by
    cases k <;> exact ⟨_, _, rfl, rfl, List.all_eq_true.mp rfl⟩
  have spells := word isWord
  rw [Token.ofWord, Keyword.ofText?_text] at spells
  exact spells

theorem symbol (s : Symbol) : Spells s.text.toList [.symbol s] := by
  intro r hr
  exact Lexeme.answersOf_symbol s hr

theorem operator (op : Operator) : Spells op.text.toList [op.token] := by
  cases op with
  | and => exact keyword .and
  | or => exact keyword .or
  | _ => exact symbol _

theorem finite {m : Magnitude} (h : m.isFinite = true) :
    Spells (Number.chars (m.toNumber false)) [.real (m.toNumber false)] := by
  intro r hr
  exact Lexeme.answersOf_number h hr.number

theorem number {v : Number} (h : Lexeme.IsLiteral v) :
    Spells v.chars [if v.isInfinite then .identifier "inf" else .real v] := by
  obtain ⟨m, rfl⟩ := h
  by_cases hm : m.isFinite = true
  · have finite : Number.isInfinite (m.toNumber false) = false := by
      rw [Number.isInfinite, Number.magnitude?_toNumber]
      apply decide_eq_false
      intro he
      cases he
      exact absurd hm (by decide)
    rw [finite]
    exact Spells.finite hm
  · have infinite : m = .infinity := by
      refine Magnitude.ext (Nat.le_antisymm m.code_le ?_)
      exact Nat.le_of_not_lt fun hlt => hm (decide_eq_true hlt)
    have written : Number.chars (m.toNumber false) = "inf".toList := by
      rw [Number.chars_toNumber, if_neg hm]
      rfl
    have inf : Number.isInfinite (m.toNumber false) = true := by
      rw [Number.isInfinite, Number.magnitude?_toNumber, infinite]
      exact decide_eq_true rfl
    rw [written, inf]
    exact name ⟨⟨'i', ['n', 'f'], rfl, rfl, List.all_eq_true.mp rfl⟩, by decide⟩

/-! ## Expressions -/

variable {cs ds : List Char} {ts us : List Token}

theorem blank (h : Spells cs ts) (h' : Spells ds us) : Spells (cs ++ ' ' :: ds) (ts ++ us) := by
  intro r hr
  rw [List.append_assoc, List.cons_append, h _ (.cons (.inl rfl) _), Lexeme.answersOf_space, h' r hr,
    List.map_append, List.append_assoc]

theorem joined {sep : Char} (hsep : sep = ' ' ∨ sep = '\n') {css : List (List Char)} {tss : List (List Token)}
    (h : List.Forall₂ Spells css tss) : Spells ([sep].intercalate css) tss.flatten := by
  have passed (r : List Char) : answersOf (sep :: r) = answersOf r := by
    rcases hsep with rfl | rfl
    · exact Lexeme.answersOf_space r
    · exact Lexeme.answersOf_newline r
  have bounded (r : List Char) : Bounded (sep :: r) := by
    rcases hsep with rfl | rfl
    · exact .cons (.inl rfl) r
    · exact .cons (.inr (.inr rfl)) r
  induction h with
  | nil => exact fun _ _ => rfl
  | @cons cs ts css tss h hs ih =>
    intro r hr
    cases hs with
    | nil => rw [List.intercalate_singleton, h r hr]; simp
    | cons h' hs =>
      rw [List.intercalate_cons_cons, List.append_assoc, List.append_assoc, List.singleton_append,
        h _ (bounded _), passed, ih r hr]
      simp

theorem parens (h : Spells cs ts) :
    Spells ('(' :: cs ++ [')']) (.symbol .lparen :: ts ++ [.symbol .rparen]) := by
  intro r _
  rw [List.append_assoc, List.singleton_append, List.cons_append, Lexeme.answersOf_lparen,
    h _ (.cons (.inr (.inl rfl)) _), Lexeme.answersOf_rparen]
  simp

theorem minus (h : Spells cs ts) : Spells ('-' :: cs) (.symbol .minus :: ts) := by
  intro r hr
  rw [List.cons_append, Lexeme.answersOf_minus, h r hr]
  rfl

theorem binary {op : Operator} {l r : Expr} (hl : Spells l.chars l.tokens) (hr : Spells r.chars r.tokens) :
    Spells (Expr.binary op l r).chars (Expr.binary op l r).tokens := by
  have spells := parens (hl.blank ((operator op).blank hr))
  simpa [Expr.chars, Expr.tokens] using spells

theorem amount {e : Expr} (h : e.IsAmount) : Spells e.chars e.tokens := by
  induction h with
  | «variable» hx => exact name hx
  | constant hv => exact number hv
  | negate _ ih => exact parens (minus ih)
  | binary _ _ _ ihl ihr => exact binary ihl ihr

theorem test {e : Expr} (h : e.IsTest) : Spells e.chars e.tokens := by
  induction h with
  | not _ ih => exact parens ((keyword .not).blank ih)
  | joined _ _ _ ihl ihr => exact binary ihl ihr
  | compared _ hl hr => exact binary (amount hl) (amount hr)

/-! ## Lines -/

theorem next {w w' : List Char} {ws : List (List Char)} (h : Spells w ts)
    (hs : Spells ([' '].intercalate (w' :: ws)) us) :
    Spells ([' '].intercalate (w :: w' :: ws)) (ts ++ us) := by
  rw [List.intercalate_cons_cons, List.append_assoc]
  exact h.blank hs

theorem last {w : List Char} (h : Spells w ts) : Spells ([' '].intercalate [w]) ts := by
  rw [List.intercalate_singleton]
  exact h

end Spells

namespace SpellsLines

variable {ls ls' : List (List Char)} {ts us : List Token}

theorem nil : SpellsLines [] [] := fun _ => rfl

theorem append (h : SpellsLines ls ts) (h' : SpellsLines ls' us) : SpellsLines (ls ++ ls') (ts ++ us) := by
  intro r
  rw [List.flatMap_append, List.append_assoc, h, h', List.map_append, List.append_assoc]

theorem line {depth : Nat} {words : List (List Char)} (h : Spells ([' '].intercalate words) ts) :
    SpellsLines [Stmt.line depth words] ts := by
  intro r
  rw [List.flatMap_cons, List.flatMap_nil, List.append_nil, Stmt.line, List.append_assoc, List.append_assoc,
    List.singleton_append, Lexeme.answersOf_replicate, h _ (.cons (.inr (.inr rfl)) _),
      Lexeme.answersOf_newline]

theorem keyword (depth : Nat) (k : Keyword) : SpellsLines [Stmt.line depth [Stmt.word k]] [.keyword k] :=
  line (.last (.keyword k))

theorem test {c : Expr} (h : c.IsTest) (depth : Nat) (k k' : Keyword) :
    SpellsLines [Stmt.line depth [Stmt.word k, c.chars, Stmt.word k']]
    ([.keyword k] ++ (c.tokens ++ [.keyword k'])) :=
  line (.next (.keyword k) (.next (.test h) (.last (.keyword k'))))

mutual

theorem single {s : Stmt} (h : s.IsSingle) (depth : Nat) : SpellsLines (s.lines depth) s.tokens := by
  match h with
  | .assign hx he => exact line (.next (.name hx) (.next (.symbol .assign) (.last (.amount he))))
  | .while hc hs =>
    have spells := ((test hc depth .while .do).append (body hs (depth + 1))).append (keyword depth .od)
    simpa [Stmt.lines, Stmt.tokens] using spells
  | .conditional hc hs ho =>
    have spells := ((test hc depth .if .then).append (body hs (depth + 1))).append (alternative ho depth)
    simpa [Stmt.lines, Stmt.tokens] using spells
  | .action => exact keyword depth _
  | .motion he => exact line (.next (.keyword _) (.last (.amount he)))

theorem body {s : Stmt} (h : s.IsBody) (depth : Nat) : SpellsLines (s.lines depth) s.tokens := by
  match h with
  | .block h => exact series h depth

theorem series {ss : List Stmt} (h : Stmt.IsSeries ss) (depth : Nat) :
    SpellsLines (Stmt.linesOfAll depth ss) (Stmt.tokensOfAll ss) := by
  match h with
  | .one h => exact (single h depth).append nil
  | .more h hs => exact (single h depth).append (series hs depth)

theorem alternative {o : Option Stmt} (h : Stmt.IsAlternative o) (depth : Nat) :
    SpellsLines (Stmt.linesOfAlternative depth o ++ [Stmt.line depth [Stmt.word .fi]])
      (Stmt.tokensOfAlternative o) := by
  match h with
  | .none => exact keyword depth .fi
  | .arm h =>
    have spells := ((keyword depth .else).append (single h (depth + 1))).append (keyword depth .fi)
    simpa [Stmt.linesOfAlternative, Stmt.tokensOfAlternative] using spells
  | .body h =>
    have spells := ((keyword depth .else).append (body h (depth + 1))).append (keyword depth .fi)
    simpa [Stmt.linesOfAlternative, Stmt.tokensOfAlternative] using spells

end

end SpellsLines

theorem answersOf_chars {p : Program} (h : p.IsWhole) : answersOf p.chars = p.tokens.map .ok := by
  have spells : SpellsLines (Stmt.linesOfAll 0 p.statements) p.tokens := by
    cases h with
    | nothing => exact .nil
    | body h => exact (SpellsLines.body h 0).append .nil
  have answers := spells []
  rw [List.append_nil, answersOf_nil, List.append_nil] at answers
  exact answers

end Turtle
