import Turtle.Program.Words

/-!
# The rules of the grammar

Which lists of tokens make up which trees, apart from how they are read. Chains of operators group to
the left, a sign of plus and parentheses leave no trace in the tree, and a block takes all statements
that stand together.
-/

namespace Turtle.Grammar

/-! ## Expressions -/

/-- What an expression can be: first the numbers, then the conditions, each from the
loosest to the tightest. -/
inductive Rank
  | expr | term | factor
  | bool | boolTerm | boolFactor | comparison
deriving DecidableEq, Repr

/-- The operators that join the operands of a chain, and the level of these operands. -/
def Rank.chain? : Rank → Option (List Operator × Rank)
  | .expr => some ([.add, .sub], .term)
  | .term => some ([.mul, .div], .factor)
  | .bool => some ([.or], .boolTerm)
  | .boolTerm => some ([.and], .boolFactor)
  | .factor | .boolFactor | .comparison => none

/-- `Phrase k w e`: the tokens `w` are an expression of the level `k` with the tree `e`. A parenthesis
that opens a condition is never the first token of a comparison. -/
inductive Phrase : Rank → List Token → Expr → Prop
  | operand {k k' : Rank} {ops : List Operator} {w : List Token} {e : Expr} (hk : k.chain? = some (ops, k'))
    (h : Phrase k' w e) : Phrase k w e
  | joined {k k' : Rank} {ops : List Operator} {op : Operator} {w v : List Token} {l r : Expr}
    (hk : k.chain? = some (ops, k')) (ho : op ∈ ops) (hl : Phrase k w l) (hr : Phrase k' v r) :
    Phrase k (w ++ op.token :: v) (.binary op l r)
  | plus {w : List Token} {e : Expr} (h : Phrase .factor w e) : Phrase .factor (.symbol .plus :: w) e
  | minus {w : List Token} {e : Expr} (h : Phrase .factor w e) :
      Phrase .factor (.symbol .minus :: w) (.negate e)
  | parens {w : List Token} {e : Expr} (h : Phrase .expr w e) :
    Phrase .factor (.symbol .lparen :: w ++ [.symbol .rparen]) e
  | name {x : String} : Phrase .factor [.identifier x] (.variable x)
  | number {v : Number} : Phrase .factor [.real v] (.constant v)
  | not {w : List Token} {e : Expr} (h : Phrase .boolFactor w e) :
      Phrase .boolFactor (.keyword .not :: w) (.not e)
  | condition {w : List Token} {e : Expr} (h : Phrase .bool w e) :
    Phrase .boolFactor (.symbol .lparen :: w ++ [.symbol .rparen]) e
  | comparison {w : List Token} {e : Expr} (hw : w.head? ≠ some (.symbol .lparen))
      (h : Phrase .comparison w e) :
    Phrase .boolFactor w e
  | compared {op : Operator} {w v : List Token} {l r : Expr} (ho : op.isRelational = true)
    (hl : Phrase .expr w l) (hr : Phrase .expr v r) : Phrase .comparison (w ++ op.token :: v) (.binary op l r)

/-! ## Statements -/

mutual

inductive Statement : List Token → Stmt → Prop
  | assign {x : String} {w : List Token} {e : Expr} (h : Phrase .expr w e) :
    Statement (.identifier x :: .symbol .assign :: w) (.assign x e)
  | while {w v : List Token} {c : Expr} {s : Stmt} (hc : Phrase .bool w c) (hs : Block v s) :
    Statement (.keyword .while :: w ++ .keyword .do :: v ++ [.keyword .od]) (.while c s)
  | if {w : List Token} {s : Stmt} (h : Arm w s) : Statement (.keyword .if :: w) s
  | action {a : Action} : Statement [.keyword a.keyword] (.action a)
  | motion {m : Motion} {w : List Token} {e : Expr} (h : Phrase .expr w e) :
    Statement (.keyword m.keyword :: w) (.motion m e)

inductive Arm : List Token → Stmt → Prop
  | arm {w v u : List Token} {c : Expr} {s : Stmt} {o : Option Stmt} (hc : Phrase .bool w c) (hs : Block v s)
    (ho : ElsePart u o) : Arm (w ++ .keyword .then :: v ++ u) (.conditional c s o)

inductive ElsePart : List Token → Option Stmt → Prop
  | elsif {w : List Token} {s : Stmt} (h : Arm w s) : ElsePart (.keyword .elsif :: w) (some s)
  | else {w : List Token} {s : Stmt} (h : Block w s) :
      ElsePart (.keyword .else :: w ++ [.keyword .fi]) (some s)
  | fi : ElsePart [.keyword .fi] none

inductive Block : List Token → Stmt → Prop
  | block {w : List Token} {ss : List Stmt} (h : Statements w ss) : Block w (.block ss)

inductive Statements : List Token → List Stmt → Prop
  | one {w : List Token} {s : Stmt} (h : Statement w s) : Statements w [s]
  | more {w v : List Token} {s : Stmt} {ss : List Stmt} (h : Statement w s) (hs : Statements v ss) :
    Statements (w ++ v) (s :: ss)

end

theorem starts_of_statement {w : List Token} {s : Stmt} (h : Statement w s) :
    ∃ t v, w = t :: v ∧ t.startsStatement = true := by
  cases h with
  | assign | «while» | «if» => exact ⟨_, _, rfl, rfl⟩
  | @action a => exact ⟨_, _, rfl, by cases a <;> rfl⟩
  | @motion m => exact ⟨_, _, rfl, by cases m <;> rfl⟩

theorem starts_of_statements {w : List Token} {ss : List Stmt} (h : Statements w ss) :
    ∃ t v, w = t :: v ∧ t.startsStatement = true := by
  cases h with
  | one h => exact starts_of_statement h
  | more h _ =>
    obtain ⟨t, v, rfl, ht⟩ := starts_of_statement h
    exact ⟨t, _, rfl, ht⟩

theorem starts_of_block {w : List Token} {s : Stmt} (h : Block w s) :
    ∃ t v, w = t :: v ∧ t.startsStatement = true := by
  cases h with
  | block h => exact starts_of_statements h

theorem length_pos_of_statement {w : List Token} {s : Stmt} (h : Statement w s) : 0 < w.length := by
  obtain ⟨t, v, rfl, -⟩ := starts_of_statement h
  exact Nat.succ_pos _

/-! ## Programs -/

/-- Blocks one after the other. What follows a block does not start a statement: the block would have
taken it. -/
inductive Blocks : List Token → List Stmt → Prop
  | none : Blocks [] []
  | more {w v : List Token} {s : Stmt} {ss : List Stmt} (h : Block w s) (hs : Blocks v ss)
    (hv : ∀ t ∈ v.head?, t.startsStatement = false) : Blocks (w ++ v) (s :: ss)

/-- The tokens `w`, with the end of the text behind them, are the program `p`. -/
def Derives (w : List Token) (p : Program) : Prop := Blocks w p.statements

theorem block_of_blocks {w : List Token} {ss : List Stmt} (h : Blocks w ss) :
    (w = [] ∧ ss = []) ∨ ∃ s, Block w s ∧ ss = [s] := by
  cases h with
  | none => exact .inl ⟨rfl, rfl⟩
  | more hs hss hv =>
    cases hss with
    | none =>
      rw [List.append_nil]
      exact .inr ⟨_, hs, rfl⟩
    | more hs' _ _ =>
      obtain ⟨t, u, rfl, ht⟩ := starts_of_block hs'
      exact absurd (hv t rfl) (by rw [ht]; exact Bool.noConfusion)

theorem derives_block {w : List Token} {s : Stmt} (h : Block w s) : Derives w ⟨[s]⟩ := by
  rw [← List.append_nil w]
  exact .more h .none (by simp)

end Turtle.Grammar
