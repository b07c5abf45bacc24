import Turtle.Grammar.Descent

/-!
# The alternatives of the descent

One equation for each alternative of a rule, by the token under the cursor. Beyond this file a rule is never
unfolded.
-/

namespace Turtle

/-- The tokens that begin some alternative of a place in the grammar. -/
def Rule.Starts : Rule → Token → Prop
  | .statement, t => t.startsStatement = true
  | .elsePart, t => t ∈ [.keyword .elsif, .keyword .else, .keyword .fi]
  | .factor, t => (∃ x, t = .identifier x) ∨ (∃ v, t = .real v) ∨
      t ∈ [.symbol .plus, .symbol .minus, .symbol .lparen]
  | .comparison, t => ∃ op : Operator, op.isRelational = true ∧ op.token = t

namespace Operator

theorem among_token {ops : List Operator} {op : Operator} (h : op ∈ ops) : among ops op.token = some op := by
  cases ho : among ops op.token with
  | none => exact absurd (List.find?_eq_none.mp ho op h) (by simp)
  | some o => rw [token_injective (token_of_among ho).2]

theorem among_eq_none {ops : List Operator} {t : Token} : among ops t = none ↔ ∀ op ∈ ops, op.token ≠ t := by
  simp [among]

def relational? (t : Token) : Option Operator := (ofToken? t).filter isRelational

theorem relational?_token {op : Operator} (h : op.isRelational = true) : relational? op.token = some op := by
  rw [relational?, ofToken?, among_token op.mem_all, Option.filter_some, if_pos h]

theorem token_of_relational? {t : Token} {op : Operator} (h : relational? t = some op) :
    op.isRelational = true ∧ op.token = t := by
  obtain ⟨ho, hr⟩ := Option.filter_eq_some_iff.mp h
  exact ⟨hr, (token_of_among ho).2⟩

end Operator

namespace Token

theorem kind_eq_symbol {t : Token} {s : Symbol} (h : t.kind = .symbol s) : t = .symbol s := by
  cases t <;> simp_all [kind]

theorem kind_eq_keyword {t : Token} {k : Keyword} (h : t.kind = .keyword k) : t = .keyword k := by
  cases t <;> simp_all [kind]

theorem startsStatement_iff {t : Token} : t.startsStatement = true ↔
    (∃ x, t = .identifier x) ∨ t = .keyword .while ∨ t = .keyword .if ∨
    (∃ a : Action, t = .keyword a.keyword) ∨
      ∃ m : Motion, t = .keyword m.keyword := by
  constructor
  · intro h
    cases t with
    | identifier x => exact .inl ⟨x, rfl⟩
    | keyword k =>
      cases ha : Action.ofKeyword? k with
      | some a => exact .inr (.inr (.inr (.inl ⟨a, by rw [Action.ofKeyword?_eq_some.mp ha]⟩)))
      | none =>
        cases hm : Motion.ofKeyword? k with
        | some m => exact .inr (.inr (.inr (.inr ⟨m, by rw [Motion.ofKeyword?_eq_some.mp hm]⟩)))
        | none => cases k <;> simp_all [startsStatement, Action.ofKeyword?, Motion.ofKeyword?]
    | _ => exact absurd h Bool.false_ne_true
  · rintro (⟨x, rfl⟩ | rfl | rfl | ⟨a, rfl⟩ | ⟨m, rfl⟩)
    · rfl
    · rfl
    · rfl
    · cases a <;> rfl
    · cases m <;> rfl

end Token

namespace Parser

theorem ok_bind {ε α β : Type} (a : α) (f : α → Except ε β) : (Except.ok a >>= f) = f a := rfl

theorem ok_of_bind {ε α β : Type} {x : Except ε α} {f : α → Except ε β} {b : β} (h : (x >>= f) = .ok b) :
    ∃ a, x = .ok a ∧ f a = .ok b := by
  cases x with
  | error e => cases h
  | ok a => exact ⟨a, rfl, h⟩

section
variable {ops : List Operator} {operand : Parser Expr} {rounds : Nat} {left : Expr} {c : Cursor}

theorem chainRest_none (h : Operator.among ops c.token = none) :
    chainRest ops operand (rounds + 1) left c = .ok (left, c) := by
  rw [chainRest, h]

theorem chainRest_some {op : Operator} (h : Operator.among ops c.token = some op) :
    chainRest ops operand (rounds + 1) left c = (do
      let (right, c) ← operand (← c.advance)
      chainRest ops operand rounds (.binary op left right) c) := by
  rw [chainRest, h]

end

section
variable {limit depth : Nat} {c : Cursor}

/-! ## Factors -/

theorem factor_plus (h : c.token = .symbol .plus) :
    factor limit (depth + 1) c = c.advance >>= factor limit depth := by
  -- with the token in its place both sides compute, and no equation of the rule is needed
  cases c
  cases h
  rfl

theorem factor_minus (h : c.token = .symbol .minus) :
    factor limit (depth + 1) c = (do
      let (e, c) ← factor limit depth (← c.advance)
      return (.negate e, c)) := by
  cases c
  cases h
  rfl

theorem factor_lparen (h : c.token = .symbol .lparen) :
    factor limit (depth + 1) c = (do
      let (e, c) ← sum limit (factor limit depth) (← c.advance)
      return (e, ← c.expect (.symbol .rparen))) := by
  cases c
  cases h
  rfl

theorem factor_identifier {x : String} (h : c.token = .identifier x) :
    factor limit (depth + 1) c = (do return (.variable x, ← c.advance)) := by
  cases c
  cases h
  rfl

theorem factor_real {v : Number} (h : c.token = .real v) :
    factor limit (depth + 1) c = (do return (.constant v, ← c.advance)) := by
  cases c
  cases h
  rfl

theorem factor_unrecognized (h : ¬ Rule.factor.Starts c.token) :
    factor limit (depth + 1) c = .error (c.unrecognized .factor) := by
  rw [factor]
  split <;> first | rfl | exact absurd (by simp [Rule.Starts, *]) h

/-! ## Conditions -/

theorem boolean_not (h : c.token = .keyword .not) :
    boolean limit (depth + 1) c = (do
      let (e, c) ← boolean limit depth (← c.advance)
      return (.not e, c)) := by
  cases c
  cases h
  rfl

theorem boolean_lparen (h : c.token = .symbol .lparen) :
    boolean limit (depth + 1) c = (do
      let (e, c) ← disjunction limit (boolean limit depth) (← c.advance)
      return (e, ← c.expect (.symbol .rparen))) := by
  cases c
  cases h
  rfl

theorem boolean_comparison (hn : c.token ≠ .keyword .not) (hp : c.token ≠ .symbol .lparen) :
    boolean limit (depth + 1) c = comparison limit c := by
  rw [boolean]
  split
  · exact absurd ‹_› hn
  · exact absurd ‹_› hp
  · rfl

def compareWith (limit : Nat) (left : Expr) : Parser Expr := fun c =>
  match Operator.relational? c.token with
  | none => .error (c.unrecognized .comparison)
  | some op => do
    let (right, c) ← expression limit (← c.advance)
    return (.binary op left right, c)

theorem comparison_eq : comparison limit c = (do
    let (left, c) ← expression limit c
    compareWith limit left c) := rfl

theorem compareWith_none {left : Expr} (h : Operator.relational? c.token = none) :
    compareWith limit left c = .error (c.unrecognized .comparison) := by
  rw [compareWith, h]

theorem compareWith_some {left : Expr} {op : Operator} (h : Operator.relational? c.token = some op) :
    compareWith limit left c = (do
      let (right, c) ← expression limit (← c.advance)
      return (.binary op left right, c)) := by
  rw [compareWith, h]

/-! ## Statements -/

theorem statement_identifier {x : String} (h : c.token = .identifier x) :
    statement limit (depth + 1) c = (do
      let (value, c) ← expression limit (← (← c.advance).expect (.symbol .assign))
      return (.assign x value, c)) := by
  cases c
  cases h
  rfl

theorem statement_while (h : c.token = .keyword .while) :
    statement limit (depth + 1) c = (do
      let (test, c) ← condition limit (← c.advance)
      let (body, c) ← block limit (statement limit depth) (← c.expect (.keyword .do))
      return (.while test body, ← c.expect (.keyword .od))) := by
  cases c
  cases h
  rfl

theorem statement_if (h : c.token = .keyword .if) :
    statement limit (depth + 1) c =
      c.advance >>= arm limit (block limit (statement limit depth))
        (elsePart limit (block limit (statement limit depth)) limit) := by
  cases c
  cases h
  rfl

theorem statement_action {a : Action} (h : c.token = .keyword a.keyword) :
    statement limit (depth + 1) c = (do return (.action a, ← c.advance)) := by
  cases c
  cases h
  cases a <;> rfl

theorem statement_motion {m : Motion} (h : c.token = .keyword m.keyword) :
    statement limit (depth + 1) c = (do
      let (amount, c) ← expression limit (← c.advance)
      return (.motion m amount, c)) := by
  cases c
  cases h
  cases m <;> rfl

theorem statement_unrecognized (h : ¬ Rule.statement.Starts c.token) :
    statement limit (depth + 1) c = .error (c.unrecognized .statement) := by
  cases ht : c.token with
  | keyword k =>
    rw [statement, ht]
    cases k <;> first | rfl | exact absurd (by rw [ht]; rfl) h
  | identifier x => exact absurd (by rw [ht]; rfl) h
  | _ => rw [statement, ht]

variable {body : Parser Stmt}

theorem elsePart_elsif (h : c.token = .keyword .elsif) :
    elsePart limit body (depth + 1) c = (do
      let (s, c) ← arm limit body (elsePart limit body depth) (← c.advance)
      return (some s, c)) := by
  cases c
  cases h
  rfl

theorem elsePart_else (h : c.token = .keyword .else) :
    elsePart limit body (depth + 1) c = (do
      let (s, c) ← body (← c.advance)
      return (some s, ← c.expect (.keyword .fi))) := by
  cases c
  cases h
  rfl

theorem elsePart_fi (h : c.token = .keyword .fi) :
    elsePart limit body (depth + 1) c = (do return (none, ← c.advance)) := by
  cases c
  cases h
  rfl

theorem elsePart_unrecognized (h : ¬ Rule.elsePart.Starts c.token) :
    elsePart limit body (depth + 1) c = .error (c.unrecognized .elsePart) := by
  rw [elsePart]
  split <;> first | rfl | exact absurd (by simp [Rule.Starts, *]) h

theorem blockRest_more (h : c.token.startsStatement = true) :
    blockRest body (depth + 1) c = (do
      let (s, c) ← body c
      let (ss, c) ← blockRest body depth c
      return (s :: ss, c)) := by
  rw [blockRest, if_pos h]

theorem blockRest_over (h : c.token.startsStatement = false) :
    blockRest body (depth + 1) c = .ok ([], c) := by
  rw [blockRest, if_neg (by rw [h]; exact Bool.false_ne_true)]

theorem block_eq (h : c.token.startsStatement = true) :
    block limit body c = (do
      let (ss, c) ← blockRest body (limit + 1) c
      return (.block ss, c)) := by
  rw [block, blockRest_more h]
  cases body c with
  | error e => rfl
  | ok r =>
    obtain ⟨s, c₁⟩ := r
    simp only [ok_bind]
    cases blockRest body limit c₁ <;> rfl

/-! ## Programs -/

def finish (s : Stmt) : Parser Program := fun c =>
  if c.token = .eot then .ok (⟨[s]⟩, c) else .error (c.unrecognized .statement)

theorem program_eot (h : c.token = .eot) : program limit c = .ok (⟨[]⟩, c) := by
  rw [program, if_pos h]; rfl

theorem program_block (h : c.token ≠ .eot) : program limit c = (do
    let (s, c) ← block limit (statement limit limit) c
    finish s c) := by
  rw [program, if_neg h]
  cases block limit (statement limit limit) c with
  | error e => rfl
  | ok r =>
    show (if r.2.token = .eot then _ else _) = finish r.1 r.2
    unfold finish
    split <;> rfl

end

end Parser

end Turtle
