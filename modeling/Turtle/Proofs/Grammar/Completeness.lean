import Turtle.Proofs.Grammar.Alternatives
import Turtle.Proofs.Grammar.Rules
import Turtle.Proofs.Grammar.Travel

/-!
# What derives is found

If the tokens ahead are a phrase and the token behind them cannot go on with it then the rule for that
phrase takes exactly these tokens and answers the tree (`reads_of_phrase`, `reads_of_statement`,
`reads_of_derives`).
-/

namespace Turtle.Grammar

/-! ## Where a phrase ends -/

/-- The operators that would make a phrase of this level longer. -/
def Rank.open : Rank → List Operator
  | .factor => []
  | .term => [.mul, .div]
  | .expr | .comparison | .boolFactor => [.add, .sub, .mul, .div]
  | .boolTerm => [.and, .add, .sub, .mul, .div]
  | .bool => [.or, .and, .add, .sub, .mul, .div]

def Rank.EndsAt (k : Rank) (t : Token) : Prop := ∀ op ∈ k.open, op.token ≠ t

section
variable {k k' : Rank} {ops : List Operator} (hk : k.chain? = some (ops, k')) {t : Token}
include hk

theorem Rank.EndsAt.operand (h : k.EndsAt t) : k'.EndsAt t := by
  have sub : ∀ op ∈ k'.open, op ∈ k.open := by cases k <;> cases hk <;> decide
  exact fun op ho => h op (sub op ho)

theorem Rank.EndsAt.among (h : k.EndsAt t) : Operator.among ops t = none := by
  have sub : ∀ op ∈ ops, op ∈ k.open := by cases k <;> cases hk <;> decide
  exact Operator.among_eq_none.mpr fun op ho => h op (sub op ho)

theorem Rank.endsAt_operator {op : Operator} (ho : op ∈ ops) : k'.EndsAt op.token := by
  have apart : ∀ op ∈ ops, op ∉ k'.open := by cases k <;> cases hk <;> decide
  exact fun op' ho' he => apart op ho (Operator.token_injective he ▸ ho')

end

theorem starts_of_phrase {k : Rank} {w : List Token} {e : Expr} (h : Phrase k w e)
    (hk : k ∈ [.expr, .term, .factor, .comparison]) : ∃ t v, w = t :: v ∧ Rule.factor.Starts t := by
  induction h with
  | @operand k k' ops w e hc _ ih =>
    apply ih
    cases k <;> cases hc <;> simp_all
  | joined hc ho _ _ ihl _ =>
    obtain ⟨t, v, rfl, ht⟩ := ihl hk
    exact ⟨t, _, rfl, ht⟩
  | plus | minus | parens => exact ⟨_, _, rfl, .inr (.inr (by simp))⟩
  | name => exact ⟨_, _, rfl, .inl ⟨_, rfl⟩⟩
  | number => exact ⟨_, _, rfl, .inr (.inl ⟨_, rfl⟩)⟩
  | not | condition | comparison => simp at hk
  | compared _ _ _ ihl _ =>
    obtain ⟨t, v, rfl, ht⟩ := ihl (by simp)
    exact ⟨t, _, rfl, ht⟩

/-! ## Expressions -/

def Rank.parser (limit depth : Nat) : Rank → Parser Expr
  | .expr => Parser.sum limit (Parser.factor limit depth)
  | .term => Parser.chain limit [.mul, .div] (Parser.factor limit depth)
  | .factor => Parser.factor limit depth
  | .bool => Parser.disjunction limit (Parser.boolean limit depth)
  | .boolTerm => Parser.chain limit [.and] (Parser.boolean limit depth)
  | .boolFactor => Parser.boolean limit depth
  | .comparison => Parser.comparison limit

theorem Rank.parser_chain {k k' : Rank} {ops : List Operator} (hk : k.chain? = some (ops, k'))
    (limit depth : Nat) :
    k.parser limit depth = Parser.chain limit ops (k'.parser limit depth) := by
  cases k <;> cases hk <;> rfl

/-- The rule for the level takes `w` and answers `e`, if the token behind `w` ends it. -/
def Reads (k : Rank) (w : List Token) (e : Expr) : Prop :=
  ∀ {limit depth : Nat} {c c' : Cursor}, c.Over w c' → k.EndsAt c'.token → c.left < limit → c.left < depth →
    k.parser limit depth c = .ok (e, c')

/-- Having taken `w` the rule for a chain goes on with `e` on its left, if the token
behind `w` ends an operand. -/
def ReadsSome (k : Rank) (w : List Token) (e : Expr) : Prop :=
  ∀ {k' : Rank} {ops : List Operator}, k.chain? = some (ops, k') → ∀ {limit depth : Nat} {c c' : Cursor},
    c.Over w c' → k'.EndsAt c'.token → c.left < limit → c.left < depth →
      ∃ rounds, c'.left < rounds ∧
        k.parser limit depth c = Parser.chainRest ops (k'.parser limit depth) rounds e c'

theorem reads_of_readsSome {k k' : Rank} {ops : List Operator} {w : List Token} {e : Expr}
    (hk : k.chain? = some (ops, k')) (h : ReadsSome k w e) : Reads k w e := by
  intro limit depth c c' hw he hl hd
  obtain ⟨rounds, hr, hp⟩ := h hk hw (he.operand hk) hl hd
  obtain ⟨r, rfl⟩ : ∃ r, rounds = r + 1 := ⟨rounds - 1, by omega⟩
  rw [hp, Parser.chainRest_none (he.among hk)]

theorem readsSome_operand {k k' : Rank} {ops : List Operator} {w : List Token} {e : Expr}
    (hk : k.chain? = some (ops, k')) (h : Reads k' w e) : ReadsSome k w e := by
  intro k'' ops' hk' limit depth c c' hw he hl hd
  cases hk.symm.trans hk'
  refine ⟨limit, Nat.lt_of_le_of_lt hw.left_le hl, ?_⟩
  rw [Rank.parser_chain hk, Parser.chain, h hw he hl hd]
  rfl

theorem readsSome_joined {k k' : Rank} {ops : List Operator} {op : Operator} {w v : List Token} {l r : Expr}
    (hk : k.chain? = some (ops, k')) (ho : op ∈ ops) (hl : ReadsSome k w l) (hr : Reads k' v r) :
    ReadsSome k (w ++ op.token :: v) (.binary op l r) := by
  intro k'' ops' hk' limit depth c c' hw he hlim hd
  cases hk.symm.trans hk'
  obtain ⟨c₁, h₁, h₂⟩ := Cursor.Over.append_iff.mp hw
  obtain ⟨ht, c₂, ha, hlt, h₃⟩ := h₂.uncons
  obtain ⟨rounds, hr', hp⟩ := hl hk h₁ (ht ▸ Rank.endsAt_operator hk ho) hlim hd
  obtain ⟨n, rfl⟩ : ∃ n, rounds = n + 1 := ⟨rounds - 1, by omega⟩
  have := h₁.left_le
  have := h₃.left_le
  refine ⟨n, by omega, ?_⟩
  have right := hr h₃ he (show c₂.left < limit by omega) (show c₂.left < depth by omega)
  rw [hp, Parser.chainRest_some (ht ▸ Operator.among_token ho), ha, Parser.ok_bind, right]
  rfl

theorem readsSome_of_no_chain {k : Rank} {w : List Token} {e : Expr} (hk : k.chain? = none) :
    ReadsSome k w e := by
  intro k' ops hk'
  rw [hk] at hk'
  cases hk'

theorem reads_of_depth {k : Rank} {w : List Token} {e : Expr}
    (h : ∀ {limit depth : Nat} {c c' : Cursor}, c.Over w c' → k.EndsAt c'.token → c.left < limit →
      c.left < depth + 1 → k.parser limit (depth + 1) c = .ok (e, c')) : Reads k w e := by
  intro limit depth c c' hw he hl hd
  obtain ⟨d, rfl⟩ : ∃ d, depth = d + 1 := ⟨depth - 1, by omega⟩
  exact h hw he hl hd

theorem endsAt_rparen (k : Rank) : k.EndsAt (.symbol .rparen) := by
  intro op _
  cases op <;> decide

theorem reads_of_phrase {k : Rank} {w : List Token} {e : Expr} (h : Phrase k w e) :
    Reads k w e ∧ ReadsSome k w e := by
  induction h with
  | @operand k k' ops w e hk _ ih =>
    have some : ReadsSome k w e := readsSome_operand hk ih.1
    exact ⟨reads_of_readsSome hk some, some⟩
  | @joined k k' ops op w v l r hk ho _ _ ihl ihr =>
    -- the left side may be a chain itself, and is taken by the rounds before the last one
    have some : ReadsSome k (w ++ op.token :: v) (.binary op l r) := readsSome_joined hk ho ihl.2 ihr.1
    exact ⟨reads_of_readsSome hk some, some⟩
  | plus _ ih =>
    refine ⟨reads_of_depth fun {limit depth c c'} hw he hl hd => ?_, readsSome_of_no_chain rfl⟩
    obtain ⟨ht, c₁, ha, hlt, h₁⟩ := hw.uncons
    rw [Rank.parser, Parser.factor_plus ht, ha]
    exact ih.1 h₁ he (by omega) (by omega)
  | minus _ ih =>
    refine ⟨reads_of_depth fun {limit depth c c'} hw he hl hd => ?_, readsSome_of_no_chain rfl⟩
    obtain ⟨ht, c₁, ha, hlt, h₁⟩ := hw.uncons
    have inner : Parser.factor limit depth c₁ = _ := ih.1 h₁ he (by omega) (by omega)
    rw [Rank.parser, Parser.factor_minus ht, ha, Parser.ok_bind, inner]
    rfl
  | parens _ ih =>
    refine ⟨reads_of_depth fun {limit depth c c'} hw he hl hd => ?_, readsSome_of_no_chain rfl⟩
    obtain ⟨ht, c₁, ha, hlt, h₁⟩ := hw.uncons
    obtain ⟨c₂, h₂, h₃⟩ := Cursor.Over.append_iff.mp h₁
    have inner : Parser.sum limit (Parser.factor limit depth) c₁ = _ :=
      ih.1 h₂ (h₃.head ▸ endsAt_rparen _) (by omega) (by omega)
    have close : c₂.expect (.symbol .rparen) = _ := h₃.expect
    simp only [Rank.parser, Parser.factor_lparen ht, ha, inner, close, Parser.ok_bind]
    rfl
  | name =>
    refine ⟨reads_of_depth fun {limit depth c c'} hw he hl hd => ?_, readsSome_of_no_chain rfl⟩
    obtain ⟨ht, -, ha⟩ := Cursor.Over.one_iff.mp hw
    rw [Rank.parser, Parser.factor_identifier ht, ha]
    rfl
  | number =>
    refine ⟨reads_of_depth fun {limit depth c c'} hw he hl hd => ?_, readsSome_of_no_chain rfl⟩
    obtain ⟨ht, -, ha⟩ := Cursor.Over.one_iff.mp hw
    rw [Rank.parser, Parser.factor_real ht, ha]
    rfl
  | not _ ih =>
    refine ⟨reads_of_depth fun {limit depth c c'} hw he hl hd => ?_, readsSome_of_no_chain rfl⟩
    obtain ⟨ht, c₁, ha, hlt, h₁⟩ := hw.uncons
    have inner : Parser.boolean limit depth c₁ = _ := ih.1 h₁ he (by omega) (by omega)
    rw [Rank.parser, Parser.boolean_not ht, ha, Parser.ok_bind, inner]
    rfl
  | condition _ ih =>
    refine ⟨reads_of_depth fun {limit depth c c'} hw he hl hd => ?_, readsSome_of_no_chain rfl⟩
    obtain ⟨ht, c₁, ha, hlt, h₁⟩ := hw.uncons
    obtain ⟨c₂, h₂, h₃⟩ := Cursor.Over.append_iff.mp h₁
    have inner : Parser.disjunction limit (Parser.boolean limit depth) c₁ = _ :=
      ih.1 h₂ (h₃.head ▸ endsAt_rparen _) (by omega) (by omega)
    have close : c₂.expect (.symbol .rparen) = _ := h₃.expect
    simp only [Rank.parser, Parser.boolean_lparen ht, ha, inner, close, Parser.ok_bind]
    rfl
  | comparison hp h ih =>
    refine ⟨reads_of_depth fun {limit depth c c'} hw he hl hd => ?_, readsSome_of_no_chain rfl⟩
    obtain ⟨t, v, rfl, hs⟩ := starts_of_phrase h (by simp)
    have ht := hw.head
    -- the two tokens that the rule looks at first are not the first one of this comparison
    rw [Rank.parser, Parser.boolean_comparison]
    · exact ih.1 hw he hl hd
    · rw [ht]; rintro rfl
      simp [Rule.Starts] at hs
    · rw [ht]; rintro rfl
      exact hp rfl
  | @compared op w v l r ho _ _ ihl ihr =>
    refine ⟨fun {limit depth c c'} hw he hl hd => ?_, readsSome_of_no_chain rfl⟩
    obtain ⟨c₁, h₁, h₂⟩ := Cursor.Over.append_iff.mp hw
    obtain ⟨ht, c₂, ha, hlt, h₃⟩ := h₂.uncons
    have := h₁.left_le
    have ends : Rank.expr.EndsAt op.token := fun op' ho' he' => by
      obtain rfl := Operator.token_injective he'
      revert ho ho'
      cases op' <;> decide
    have left : Parser.expression limit c = _ := ihl.1 h₁ (ht ▸ ends) hl hl
    have right : Parser.expression limit c₂ = _ := ihr.1 h₃ he (by omega) (by omega)
    simp only [Rank.parser, Parser.comparison_eq, left, Parser.ok_bind,
      Parser.compareWith_some (ht ▸ Operator.relational?_token ho), ha, right]
    rfl

theorem expression_of_phrase {w : List Token} {e : Expr} (h : Phrase .expr w e) {limit : Nat} {c c' : Cursor}
    (hw : c.Over w c') (he : Rank.expr.EndsAt c'.token) (hl : c.left < limit) :
    Parser.expression limit c = .ok (e, c') :=
  (reads_of_phrase h).1 hw he hl hl

theorem condition_of_phrase {w : List Token} {e : Expr} (h : Phrase .bool w e) {limit : Nat} {c c' : Cursor}
    (hw : c.Over w c') (he : Rank.bool.EndsAt c'.token) (hl : c.left < limit) :
    Parser.condition limit c = .ok (e, c') :=
  (reads_of_phrase h).1 hw he hl hl

/-! ## Statements -/

theorem endsAt_of_startsStatement {t : Token} (h : t.startsStatement = true) : Rank.expr.EndsAt t := by
  intro op ho
  rintro rfl
  revert ho h
  cases op <;> decide

theorem endsAt_keyword {k : Keyword} (h : k ∉ [.and, .or]) (l : Rank) : l.EndsAt (.keyword k) := by
  intro op _ he
  cases op <;> cases he <;> simp at h

theorem starts_over_statements {w : List Token} {ss : List Stmt} (h : Statements w ss) {c c' : Cursor}
    (hw : c.Over w c') : c.token.startsStatement = true := by
  obtain ⟨t, v, rfl, ht⟩ := starts_of_statements h
  rw [hw.head]
  exact ht

theorem ends_of_elsePart {w : List Token} {o : Option Stmt} (h : ElsePart w o) {c c' : Cursor}
    (hw : c.Over w c') :
    Rank.expr.EndsAt c.token ∧ c.token.startsStatement = false := by
  cases h <;> rw [hw.head] <;> exact ⟨endsAt_keyword (by decide) _, rfl⟩

mutual

theorem reads_of_statement {w : List Token} {s : Stmt} (h : Statement w s) {limit depth : Nat} {c c' : Cursor}
    (hw : c.Over w c') (he : Rank.expr.EndsAt c'.token) (hl : c.left < limit) (hd : c.left < depth) :
    Parser.statement limit depth c = .ok (s, c') := by
  obtain ⟨d, rfl⟩ : ∃ d, depth = d + 1 := ⟨depth - 1, by omega⟩
  match h with
  | .assign h =>
    obtain ⟨ht, c₁, ha, hlt, h₁⟩ := hw.uncons
    obtain ⟨c₂, h₂, h₃⟩ := Cursor.Over.append_iff.mp (show c₁.Over ([_] ++ _) c' from h₁)
    have := h₂.left_le
    have assign : c₁.expect (.symbol .assign) = _ := h₂.expect
    have value := expression_of_phrase h h₃ he (show c₂.left < limit by omega)
    rw [Parser.statement_identifier ht, ha, Parser.ok_bind, assign, Parser.ok_bind, value]
    rfl
  | .while hc hs =>
    rw [List.cons_append, List.cons_append, List.append_assoc, List.cons_append] at hw
    obtain ⟨ht, c₁, ha, hlt, h₁⟩ := hw.uncons
    obtain ⟨c₂, h₂, h₃⟩ := Cursor.Over.append_iff.mp h₁
    obtain ⟨c₃, h₄, h₅⟩ := Cursor.Over.append_iff.mp (show c₂.Over ([_] ++ _) c' from h₃)
    obtain ⟨c₄, h₆, h₇⟩ := Cursor.Over.append_iff.mp h₅
    have := h₂.left_le
    have := h₄.left_le
    have test := condition_of_phrase hc h₂ (h₃.head ▸ endsAt_keyword (by decide) _)
      (show c₁.left < limit by omega)
    have do_ : c₂.expect (.keyword .do) = _ := h₄.expect
    have body := reads_of_block hs h₆ (h₇.head ▸ endsAt_keyword (by decide) _) (by rw [h₇.head]; rfl)
      (show c₃.left < limit by omega) (show c₃.left < d by omega)
    have od : c₄.expect (.keyword .od) = _ := h₇.expect
    simp only [Parser.statement_while ht, ha, test, do_, body, od, Parser.ok_bind]
    rfl
  | .if h =>
    obtain ⟨ht, c₁, ha, hlt, h₁⟩ := hw.uncons
    rw [Parser.statement_if ht, ha]
    exact reads_of_arm h h₁ (by omega) (by omega) (by omega)
  | .action =>
    obtain ⟨ht, -, ha⟩ := Cursor.Over.one_iff.mp hw
    rw [Parser.statement_action ht, ha]
    rfl
  | .motion h =>
    obtain ⟨ht, c₁, ha, hlt, h₁⟩ := hw.uncons
    have amount := expression_of_phrase h h₁ he (show c₁.left < limit by omega)
    rw [Parser.statement_motion ht, ha, Parser.ok_bind, amount]
    rfl

theorem reads_of_arm {w : List Token} {s : Stmt} (h : Arm w s) {limit depth rounds : Nat} {c c' : Cursor}
    (hw : c.Over w c') (hl : c.left < limit) (hd : c.left < depth) (hr : c.left < rounds) :
    Parser.arm limit (Parser.block limit (Parser.statement limit depth))
      (Parser.elsePart limit (Parser.block limit (Parser.statement limit depth)) rounds) c = .ok (s, c') := by
  match h with
  | .arm hc hs ho =>
    rw [List.append_assoc, List.cons_append] at hw
    obtain ⟨c₁, h₁, h₂⟩ := Cursor.Over.append_iff.mp hw
    obtain ⟨c₂, h₃, h₄⟩ := Cursor.Over.append_iff.mp (show c₁.Over ([_] ++ _) c' from h₂)
    obtain ⟨c₃, h₅, h₆⟩ := Cursor.Over.append_iff.mp h₄
    have := h₁.left_le
    have := h₃.left_le
    have := h₅.left_le
    obtain ⟨ends, starts⟩ := ends_of_elsePart ho h₆
    have test := condition_of_phrase hc h₁ (h₂.head ▸ endsAt_keyword (by decide) _) hl
    have then_ : c₁.expect (.keyword .then) = _ := h₃.expect
    have body := reads_of_block hs h₅ ends starts (show c₂.left < limit by omega)
      (show c₂.left < depth by omega)
    have rest := reads_of_elsePart ho h₆ (show c₃.left < limit by omega) (show c₃.left < depth by omega)
      (show c₃.left < rounds by omega)
    simp only [Parser.arm, test, then_, body, rest, Parser.ok_bind]
    rfl

theorem reads_of_elsePart {w : List Token} {o : Option Stmt} (h : ElsePart w o) {limit depth rounds : Nat}
    {c c' : Cursor} (hw : c.Over w c') (hl : c.left < limit) (hd : c.left < depth) (hr : c.left < rounds) :
    Parser.elsePart limit (Parser.block limit (Parser.statement limit depth)) rounds c = .ok (o, c') := by
  obtain ⟨r, rfl⟩ : ∃ r, rounds = r + 1 := ⟨rounds - 1, by omega⟩
  match h with
  | .elsif h =>
    obtain ⟨ht, c₁, ha, hlt, h₁⟩ := hw.uncons
    have arm := reads_of_arm h h₁ (show c₁.left < limit by omega) (show c₁.left < depth by omega)
      (show c₁.left < r by omega)
    rw [Parser.elsePart_elsif ht, ha, Parser.ok_bind, arm]
    rfl
  | .else h =>
    obtain ⟨ht, c₁, ha, hlt, h₁⟩ := hw.uncons
    obtain ⟨c₂, h₂, h₃⟩ := Cursor.Over.append_iff.mp h₁
    have body := reads_of_block h h₂ (h₃.head ▸ endsAt_keyword (by decide) _) (by rw [h₃.head]; rfl)
      (show c₁.left < limit by omega) (show c₁.left < depth by omega)
    have fi : c₂.expect (.keyword .fi) = _ := h₃.expect
    simp only [Parser.elsePart_else ht, ha, body, fi, Parser.ok_bind]
    rfl
  | .fi =>
    obtain ⟨ht, -, ha⟩ := Cursor.Over.one_iff.mp hw
    rw [Parser.elsePart_fi ht, ha]
    rfl

theorem reads_of_block {w : List Token} {s : Stmt} (h : Block w s) {limit depth : Nat} {c c' : Cursor}
    (hw : c.Over w c') (he : Rank.expr.EndsAt c'.token) (hs : c'.token.startsStatement = false)
    (hl : c.left < limit) (hd : c.left < depth) :
    Parser.block limit (Parser.statement limit depth) c = .ok (s, c') := by
  match h with
  | .block h =>
    obtain ⟨rounds, hr, rest⟩ := blockRest_of_statements h hw he hl hd (show c.left < limit + 1 by omega)
    obtain ⟨r, rfl⟩ : ∃ r, rounds = r + 1 := ⟨rounds - 1, by omega⟩
    rw [Parser.block_eq (starts_over_statements h hw), rest, Parser.blockRest_over hs, Parser.ok_bind]
    dsimp only
    rw [List.append_nil]
    rfl

theorem blockRest_of_statements {w : List Token} {ss : List Stmt} (h : Statements w ss)
    {limit depth rounds : Nat} {c c' : Cursor} (hw : c.Over w c') (he : Rank.expr.EndsAt c'.token)
    (hl : c.left < limit) (hd : c.left < depth) (hr : c.left < rounds) : ∃ rounds', c'.left < rounds' ∧
      Parser.blockRest (Parser.statement limit depth) rounds c = (do
        let (ts, d) ← Parser.blockRest (Parser.statement limit depth) rounds' c'
        return (ss ++ ts, d)) := by
  obtain ⟨r, rfl⟩ : ∃ r, rounds = r + 1 := ⟨rounds - 1, by omega⟩
  rw [Parser.blockRest_more (starts_over_statements h hw)]
  match h with
  | .one h =>
    have := hw.left_add
    have := length_pos_of_statement h
    refine ⟨r, by omega, ?_⟩
    rw [reads_of_statement h hw he hl hd]
    rfl
  | .more h hss =>
    obtain ⟨c₁, h₁, h₂⟩ := Cursor.Over.append_iff.mp hw
    have := h₁.left_add
    have := length_pos_of_statement h
    have first := reads_of_statement h h₁ (endsAt_of_startsStatement (starts_over_statements hss h₂)) hl hd
    obtain ⟨rounds', hr', rest⟩ := blockRest_of_statements hss h₂ he (show c₁.left < limit by omega)
      (show c₁.left < depth by omega) (show c₁.left < r by omega)
    refine ⟨rounds', hr', ?_⟩
    rw [first, Parser.ok_bind]
    dsimp only
    rw [rest]
    cases Parser.blockRest (Parser.statement limit depth) rounds' c' <;> rfl

end

/-! ## Programs -/

theorem reads_of_derives {w : List Token} {p : Program} (h : Derives w p) {limit : Nat} {c c' : Cursor}
    (hw : c.Over w c') (he : c'.token = .eot) (hl : c.left < limit) :
    Parser.program limit c = .ok (p, c') := by
  obtain ⟨ss⟩ := p
  rcases block_of_blocks h with ⟨rfl, rfl⟩ | ⟨s, hs, rfl⟩
  · obtain rfl := Cursor.Over.nil_iff.mp hw
    exact Parser.program_eot he
  · have ht : c.token ≠ .eot := by
      obtain ⟨t, u, rfl, ht⟩ := starts_of_block hs
      rw [hw.head]; rintro rfl; exact Bool.noConfusion ht
    have ends : Rank.expr.EndsAt c'.token := by
      rw [he]; intro op _
      cases op <;> exact Token.noConfusion
    rw [Parser.program_block ht, reads_of_block hs hw ends (by rw [he]; rfl) hl hl]
    exact if_pos he

end Turtle.Grammar
