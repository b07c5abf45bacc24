import Turtle.Proofs.Grammar.Answer
import Turtle.Proofs.Grammar.Rules

/-!
# The answers of the descent

Every rule of the descent answers in the sense of the grammar (`answers_factor` to `answers_program`): a
tree that it finds derives from the tokens it took, and where it stops the message asks for something
that could stand there.
-/

namespace Turtle

open Grammar

/-! ## Every place of the grammar can be filled -/

namespace Grammar

theorem exists_phrase (k : Rank) : ∃ w e, Phrase k w e := by
  have factor : Phrase .factor [.identifier "x"] (.variable "x") := .name
  have expr : Phrase .expr _ _ := .operand rfl (.operand rfl factor)
  have comparison : Phrase .comparison _ _ :=
    .compared (show Operator.less.isRelational = true by decide) expr expr
  have boolFactor : Phrase .boolFactor _ _ := .comparison (by simp) comparison
  cases k with
  | expr => exact ⟨_, _, expr⟩
  | term => exact ⟨_, _, .operand rfl factor⟩
  | factor => exact ⟨_, _, factor⟩
  | bool => exact ⟨_, _, .operand rfl (.operand rfl boolFactor)⟩
  | boolTerm => exact ⟨_, _, .operand rfl boolFactor⟩
  | boolFactor => exact ⟨_, _, boolFactor⟩
  | comparison => exact ⟨_, _, comparison⟩

theorem exists_elsePart : ∃ w o, ElsePart w o := ⟨_, _, .fi⟩

theorem exists_block : ∃ w s, Block w s := ⟨_, _, .block (.one (.action (a := .home)))⟩

theorem exists_arm : ∃ w s, Arm w s := by
  obtain ⟨w, test, hw⟩ := exists_phrase .bool
  obtain ⟨v, s, hv⟩ := exists_block
  exact ⟨_, _, .arm hw hv .fi⟩

/-- Statements or none, as they may follow the first statement of a block. -/
def Rest (w : List Token) (ss : List Stmt) : Prop := (w = [] ∧ ss = []) ∨ Statements w ss

theorem statements_of_rest {w v : List Token} {s : Stmt} {ss : List Stmt} (h : Statement w s)
    (hr : Rest v ss) :
    Statements (w ++ v) (s :: ss) := by
  rcases hr with ⟨rfl, rfl⟩ | hr
  · rw [List.append_nil]; exact .one h
  · exact .more h hr

theorem statements_append {w v : List Token} {ss ts : List Stmt} (h : Statements w ss)
    (hs : Statements v ts) :
    Statements (w ++ v) (ss ++ ts) := by
  cases h with
  | one h => exact .more h hs
  | more h h' =>
    rw [List.append_assoc]
    exact .more h (statements_append h' hs)

theorem rest_append {w v : List Token} {ss ts : List Stmt} (hw : Rest w ss) (hv : Rest v ts) :
    Rest (w ++ v) (ss ++ ts) := by
  rcases hw with ⟨rfl, rfl⟩ | hw
  · exact hv
  · rcases hv with ⟨rfl, rfl⟩ | hv
    · rw [List.append_nil, List.append_nil]
      exact .inr hw
    · exact .inr (statements_append hw hv)

theorem exists_statement {t : Token} (ht : t.startsStatement = true) : ∃ w s, Statement (t :: w) s := by
  obtain ⟨u, e, hu⟩ := exists_phrase .expr
  obtain ⟨v, test, hv⟩ := exists_phrase .bool
  obtain ⟨w, s, hw⟩ := exists_block
  obtain ⟨w', s', hw'⟩ := exists_arm
  obtain ⟨x, rfl⟩ | rfl | rfl | ⟨a, rfl⟩ | ⟨m, rfl⟩ := Token.startsStatement_iff.mp ht
  · exact ⟨_, _, .assign hu⟩
  · exact ⟨_, _, .while hv hw⟩
  · exact ⟨_, _, .if hw'⟩
  · exact ⟨_, _, .action⟩
  · exact ⟨_, _, .motion hu⟩

theorem exists_derives {w : List Token} {s : Stmt} (h : Block w s) {t : Token}
    (ht : t.startsStatement = true) :
    ∃ v p, Derives (w ++ t :: v) p := by
  obtain ⟨v, s', hv⟩ := exists_statement ht
  cases h with
  | block h => exact ⟨v, _, derives_block (.block (statements_append h (.one hv)))⟩

end Grammar

namespace Parser

/-! ## Chains -/

section
variable {k k' : Rank} {ops : List Operator} (hk : k.chain? = some (ops, k')) {operand operand' : Parser Expr}
  {b n : Nat} (ho : ∀ c, c.left < b → Answers n (Phrase k') operand' c (operand c))
include hk ho

theorem answers_chainRest {rounds rounds' m : Nat} {c : Cursor} {w : List Token} {left : Expr}
    (hb : c.left < b) (hr : c.left < rounds) (hm : m ≤ n) (hr' : m ≤ rounds') (hl : Phrase k w left) :
    Answers m (fun v e => Phrase k (w ++ v) e) (chainRest ops operand' rounds' left) c
      (chainRest ops operand rounds left c) := by
  induction rounds generalizing rounds' m c w left with
  | zero => omega
  | succ rounds ih =>
    refine .succ (f := fun r => chainRest ops operand' r left) hr' ?_
    intro rounds' hr'
    cases ha : Operator.among ops c.token with
    | none =>
      rw [chainRest_none ha]
      refine .congr (fun d _ hd => chainRest_none (hd ▸ ha)) (.pure ?_)
      rwa [List.append_nil]
    | some op =>
      obtain ⟨hop, ht⟩ := Operator.token_of_among ha
      have fill {v e} (hv : Phrase k' v e) : Phrase k (w ++ c.token :: v) (.binary op left e) :=
        ht ▸ .joined hk hop hl hv
      rw [chainRest_some ha]
      refine .congr (fun d _ hd => chainRest_some (hd ▸ ha)) (.advance ?_ ?_ fun c₁ h₁ => ?_)
      · rw [← ht]; cases op <;> exact Token.noConfusion
      · obtain ⟨v, e, hv⟩ := exists_phrase k'
        exact ⟨v, _, fill hv⟩
      · have := h₁.left_add
        rw [List.length_singleton] at this
        refine .bind ((ho c₁ (by omega)).le (Nat.le_trans (Nat.sub_le ..) hm))
          (fun {v e} hv => ⟨[], .binary op left e, ?_⟩)
          fun {v e c₂} h₂ hv => ?_
        · rw [List.append_nil]; exact fill hv
        · have := h₂.left_le
          refine .imp (fun u e hu => ?_)
            (ih (by omega) (by omega) (by omega) (by omega) (fill hv))
          simpa using hu

theorem answers_chain {limit limit' : Nat} {c : Cursor} (hb : c.left < b) (hc : c.left < limit)
    (hn : n ≤ limit') :
    Answers n (Phrase k) (chain limit' ops operand') c (chain limit ops operand c) := by
  refine .bind (ho c hb) (fun {v e} hv => ⟨[], e, ?_⟩) fun {v e c₁} h₁ hv => ?_
  · rw [List.append_nil]; exact .operand hk hv
  · have := h₁.left_le
    exact answers_chainRest hk ho (by omega) (by omega) (Nat.sub_le ..) (by omega) (.operand hk hv)

end

/-! ## Expressions -/

section
variable {limit limit' n : Nat}

theorem answers_sum {factor factor' : Parser Expr} {b : Nat}
    (hf : ∀ c, c.left < b → Answers n (Phrase .factor) factor' c (factor c)) {c : Cursor} (hb : c.left < b)
    (hl : c.left < limit) (hn : n ≤ limit') :
    Answers n (Phrase .expr) (sum limit' factor') c (sum limit factor c) := by
  have term : ∀ c, c.left < min b limit → Answers n (Phrase .term) (chain limit' [.mul, .div] factor') c
      (chain limit [.mul, .div] factor c) :=
    fun c hc => answers_chain rfl hf (by omega) (by omega) hn
  exact answers_chain rfl term (by omega) hl hn

theorem answers_factor {depth depth' n : Nat} (hn : n ≤ limit') {c : Cursor} (hl : c.left < limit)
    (hd : c.left < depth) (hd' : n ≤ depth') :
    Answers n (Phrase .factor) (factor limit' depth') c (factor limit depth c) := by
  induction depth generalizing c depth' n with
  | zero => omega
  | succ depth ih =>
    refine .succ hd' ?_
    intro depth' hd'
    -- an obstacle has to name what could stand there, and then some phrase has to go on from it
    obtain ⟨u, e₀, h₀⟩ := exists_phrase .factor
    obtain ⟨v, f₀, k₀⟩ := exists_phrase .expr
    have inner : ∀ c₁, c₁.left < c.left → Answers (n - 1) (Phrase .factor) (factor limit' depth') c₁
        (factor limit depth c₁) := fun c₁ _ => ih (by omega) (by omega) (by omega) (by omega)
    have left_one {c₁ : Cursor} (h : c.Over [c.token] c₁) : c₁.left < c.left := h.left_add
    by_cases hs : Rule.factor.Starts c.token
    · obtain ⟨x, ht⟩ | ⟨v, ht⟩ | ht := hs
      · rw [factor_identifier ht]
        exact .congr (fun d _ hd => factor_identifier (hd.trans ht)) (.last (by simp [ht]) (ht ▸ .name))
      · rw [factor_real ht]
        exact .congr (fun d _ hd => factor_real (hd.trans ht)) (.last (by simp [ht]) (ht ▸ .number))
      · simp only [List.mem_cons, List.not_mem_nil, or_false] at ht
        obtain ht | ht | ht := ht
        · rw [factor_plus ht]
          refine .congr (fun d _ hd => factor_plus (hd.trans ht)) (.advance (by simp [ht]) ?_ fun c₁ h₁ => ?_)
          · exact ⟨u, e₀, ht ▸ .plus h₀⟩
          · exact .imp (fun w e hw => ht ▸ .plus hw) (inner c₁ (left_one h₁))
        · rw [factor_minus ht]
          refine .congr (fun d _ hd => factor_minus (hd.trans ht))
            (.advance (by simp [ht]) ?_ fun c₁ h₁ => ?_)
          · exact ⟨u, .negate e₀, ht ▸ .minus h₀⟩
          · exact .map (inner c₁ (left_one h₁)) fun hw => ht ▸ .minus hw
        · have parens {w e t} (hw : Phrase .expr w e) (hp : t = .symbol .rparen) :
              Phrase .factor (c.token :: (w ++ [t])) e := by
            rw [ht, hp]; exact .parens hw
          rw [factor_lparen ht]
          refine .congr (fun d _ hd => factor_lparen (hd.trans ht))
            (.advance (by simp [ht]) ?_ fun c₁ h₁ => ?_)
          · exact ⟨_, f₀, parens k₀ rfl⟩
          · have := left_one h₁
            refine .bind (answers_sum inner (by omega) (by omega) (by omega)) (fun hw => ?_) fun _ hw => ?_
            · exact ⟨_, _, parens hw rfl⟩
            · exact .close (by simp) fun t h => parens hw (Token.kind_eq_symbol h)
    · rw [factor_unrecognized hs]
      refine .congr (fun d _ hd => factor_unrecognized (hd ▸ hs)) (.unrecognized fun t ht => ?_)
      obtain ⟨x, rfl⟩ | ⟨v, rfl⟩ | ht := ht
      · exact ⟨[], _, .name⟩
      · exact ⟨[], _, .number⟩
      · simp only [List.mem_cons, List.not_mem_nil, or_false] at ht
        obtain rfl | rfl | rfl := ht
        · exact ⟨_, _, .plus h₀⟩
        · exact ⟨_, _, .minus h₀⟩
        · exact ⟨_, _, .parens k₀⟩

theorem answers_expression {c : Cursor} (hl : c.left < limit) (hn : n ≤ limit') :
    Answers n (Phrase .expr) (expression limit') c (expression limit c) :=
  answers_sum (fun _ hc => answers_factor hn hc hc hn) hl hl hn

theorem answers_compareWith {c : Cursor} {w : List Token} {left : Expr} (hl : c.left < limit)
    (hn : n ≤ limit') (hw : Phrase .expr w left) :
    Answers n (fun v e => Phrase .comparison (w ++ v) e) (compareWith limit' left) c
      (compareWith limit left c) := by
  cases hr : Operator.relational? c.token with
  | none =>
    rw [compareWith_none hr]
    refine .congr (fun d _ hd => compareWith_none (hd ▸ hr)) (.unrecognized fun t ht => ?_)
    obtain ⟨op, ho, rfl⟩ := ht
    obtain ⟨v, r, hv⟩ := exists_phrase .expr
    exact ⟨v, _, .compared ho hw hv⟩
  | some op =>
    obtain ⟨ho, ht⟩ := Operator.token_of_relational? hr
    rw [compareWith_some hr]
    refine .congr (fun d _ hd => compareWith_some (hd ▸ hr)) (.advance ?_ ?_ fun c₁ h₁ => ?_)
    · rw [← ht]; cases op <;> exact Token.noConfusion
    · obtain ⟨v, e, hv⟩ := exists_phrase .expr
      exact ⟨v, .binary op left e, ht ▸ .compared ho hw hv⟩
    · have := h₁.left_le
      have right : Answers (n - 1) (Phrase .expr) (expression limit') c₁ (expression limit c₁) :=
        answers_expression (by omega) (by omega)
      exact .map right fun hv => ht ▸ .compared ho hw hv

theorem answers_comparison {c : Cursor} (hl : c.left < limit) (hn : n ≤ limit') :
    Answers n (Phrase .comparison) (comparison limit') c (comparison limit c) := by
  rw [comparison_eq]
  refine .congr (fun d _ _ => comparison_eq) (.bind (answers_expression hl hn) (fun hw => ?_) fun h₁ hw => ?_)
  · obtain ⟨v, r, hv⟩ := exists_phrase .expr
    exact ⟨_, _, .compared (show Operator.less.isRelational = true by decide) hw hv⟩
  · have := h₁.left_le
    exact answers_compareWith (by omega) (by omega) hw

/-! ## Conditions -/

/-- A comparison that is stopped at its first token may yet be a condition in parentheses. -/
theorem answers_boolFactor {f : Parser Expr} {c : Cursor} {r : Except SyntaxError (Expr × Cursor)}
    (hp : c.token ≠ .symbol .lparen) (h : Answers n (Phrase .comparison) f c r) :
    Answers n (Phrase .boolFactor) f c r := by
  have here {w c'} (hw : c.Over w c') : w.head? ≠ some (.symbol .lparen) := by
    cases w with
    | nil => simp
    | cons t w => rw [← hw.head]; exact fun e => hp (Option.some.inj e)
  cases h with
  | ok hw ha hf =>
    exact .ok hw (.comparison (here hw) ha) hf
  | @error w o c' e hw he hx hf =>
    refine .error hw he (fun t ht => ?_) hf
    by_cases hl : (w ++ [t]).head? = some (.symbol .lparen)
    · cases w with
      | nil =>
        obtain ⟨v, e, hv⟩ := exists_phrase .bool
        obtain rfl : t = .symbol .lparen := Option.some.inj hl
        exact ⟨_, _, .condition hv⟩
      | cons t' w => exact absurd (show (t' :: w).head? = _ from hl) (here hw)
    · obtain ⟨v, e, hv⟩ := hx t ht
      refine ⟨v, e, .comparison (fun hh => hl ?_) hv⟩
      cases w <;> exact hh

theorem answers_disjunction {boolean boolean' : Parser Expr} {b : Nat}
    (hf : ∀ c, c.left < b → Answers n (Phrase .boolFactor) boolean' c (boolean c)) {c : Cursor}
    (hb : c.left < b) (hl : c.left < limit) (hn : n ≤ limit') :
    Answers n (Phrase .bool) (disjunction limit' boolean') c (disjunction limit boolean c) := by
  have term : ∀ c, c.left < min b limit → Answers n (Phrase .boolTerm) (chain limit' [.and] boolean') c
      (chain limit [.and] boolean c) :=
    fun c hc => answers_chain rfl hf (by omega) (by omega) hn
  exact answers_chain rfl term (by omega) hl hn

theorem answers_boolean {depth depth' n : Nat} (hn : n ≤ limit') {c : Cursor} (hl : c.left < limit)
    (hd : c.left < depth) (hd' : n ≤ depth') :
    Answers n (Phrase .boolFactor) (boolean limit' depth') c (boolean limit depth c) := by
  induction depth generalizing c depth' n with
  | zero => omega
  | succ depth ih =>
    refine .succ hd' ?_
    intro depth' hd'
    obtain ⟨u, e₀, h₀⟩ := exists_phrase .boolFactor
    obtain ⟨v, f₀, k₀⟩ := exists_phrase .bool
    have inner : ∀ c₁, c₁.left < c.left → Answers (n - 1) (Phrase .boolFactor) (boolean limit' depth') c₁
        (boolean limit depth c₁) := fun c₁ _ => ih (by omega) (by omega) (by omega) (by omega)
    have left_one {c₁ : Cursor} (h : c.Over [c.token] c₁) : c₁.left < c.left := h.left_add
    by_cases ht : c.token = .keyword .not
    · rw [boolean_not ht]
      refine .congr (fun d _ hd => boolean_not (hd.trans ht)) (.advance (by simp [ht]) ?_ fun c₁ h₁ => ?_)
      · exact ⟨u, .not e₀, ht ▸ .not h₀⟩
      · exact .map (inner c₁ (left_one h₁)) fun hw => ht ▸ .not hw
    · by_cases hp : c.token = .symbol .lparen
      · have parens {w e t} (hw : Phrase .bool w e) (ht : t = .symbol .rparen) :
            Phrase .boolFactor (c.token :: (w ++ [t])) e := by
          rw [hp, ht]; exact .condition hw
        rw [boolean_lparen hp]
        refine .congr (fun d _ hd => boolean_lparen (hd.trans hp))
          (.advance (by simp [hp]) ?_ fun c₁ h₁ => ?_)
        · exact ⟨_, f₀, parens k₀ rfl⟩
        · have := left_one h₁
          refine .bind (answers_disjunction inner (by omega) (by omega) (by omega))
            (fun hw => ?_) fun _ hw => ?_
          · exact ⟨_, _, parens hw rfl⟩
          · exact .close (by simp) fun t h => parens hw (Token.kind_eq_symbol h)
      · rw [boolean_comparison ht hp]
        exact .congr (fun d _ hd => boolean_comparison (hd ▸ ht) (hd ▸ hp))
          (answers_boolFactor hp (answers_comparison hl hn))

theorem answers_condition {c : Cursor} (hl : c.left < limit) (hn : n ≤ limit') :
    Answers n (Phrase .bool) (condition limit') c (condition limit c) :=
  answers_disjunction (fun _ hc => answers_boolean hn hc hc hn) hl hl hn

end

/-! ## Statements -/

section
variable {statement statement' : Parser Stmt} {b n : Nat}
  (hs : ∀ c, c.left < b → Answers n Statement statement' c (statement c))
include hs

theorem answers_blockRest {rounds rounds' m : Nat} {c : Cursor} (hb : c.left < b)
    (hr : c.left < rounds) (hm : m ≤ n) (hr' : m ≤ rounds') :
    Answers m Rest (blockRest statement' rounds') c (blockRest statement rounds c) := by
  induction rounds generalizing rounds' m c with
  | zero => omega
  | succ rounds ih =>
    refine .succ hr' ?_
    intro rounds' hr'
    by_cases ht : c.token.startsStatement = true
    · rw [blockRest_more ht]
      refine .congr (fun d _ hd => blockRest_more (hd ▸ ht))
        (.bind ((hs c hb).le hm) (fun hw => ?_) fun {w s c₁} h₁ hw => ?_)
      · exact ⟨[], _, .inr (statements_of_rest hw (.inl ⟨rfl, rfl⟩))⟩
      · have := h₁.left_add
        have := length_pos_of_statement hw
        exact .map (ih (by omega) (by omega) (by omega) (by omega)) fun hv => .inr (statements_of_rest hw hv)
    · rw [Bool.not_eq_true] at ht
      rw [blockRest_over ht]
      exact .congr (fun d _ hd => blockRest_over (hd ▸ ht)) (.pure (.inl ⟨rfl, rfl⟩))

theorem answers_block {limit limit' : Nat} {c : Cursor} (hb : c.left < b) (hl : c.left < limit)
    (hn : n ≤ limit') :
    Answers n Block (block limit' statement') c (block limit statement c) := by
  refine .bind (hs c hb) (fun hw => ?_) fun {w s c₁} h₁ hw => ?_
  · exact ⟨[], _, .block (statements_of_rest hw (.inl ⟨rfl, rfl⟩))⟩
  · have := h₁.left_le
    have rest := answers_blockRest hs (c := c₁) (m := n - w.length) (by omega) (show c₁.left < limit by omega)
      (Nat.sub_le ..) (show _ ≤ limit' by omega)
    exact .map (M := fun v b => Block (w ++ v) b) (k := fun ss => .block (s :: ss)) rest fun hv =>
      .block (statements_of_rest hw hv)

end

section
variable {limit limit' b n : Nat} {block block' : Parser Stmt} (hn : n ≤ limit')
  (hs : ∀ c, c.left < b → Answers n Block block' c (block c))
include hn hs

theorem answers_arm {rest rest' : Parser (Option Stmt)} {c : Cursor}
    (ho : ∀ c₁, c₁.left < c.left → Answers n ElsePart rest' c₁ (rest c₁)) (hb : c.left < b)
    (hl : c.left < limit) :
    Answers n Arm (arm limit' block' rest') c (arm limit block rest c) := by
  obtain ⟨v, s, hv⟩ := exists_block
  obtain ⟨u, o, hu⟩ := exists_elsePart
  have fill {w v u t test s o} (hw : Phrase .bool w test) (ht : t = .keyword .then) (hv : Block v s)
      (hu : ElsePart u o) : Arm (w ++ (t :: (v ++ u))) (.conditional test s o) := by
    rw [ht]; simpa using Arm.arm hw hv hu
  refine .bind (answers_condition hl hn) (fun hw => ⟨_, _, fill hw rfl hv hu⟩) fun {w test c₁} h₁ hw => ?_
  refine .expect (by simp) (fun t ht => ⟨_, _, fill hw (Token.kind_eq_keyword ht) hv hu⟩) ?_
  intro c₂ ht h₂
  have then_ := Token.kind_eq_keyword ht
  have hlt : c₂.left < c₁.left := h₂.left_add
  have := h₁.left_le
  refine .bind ((hs c₂ (by omega)).le (by omega)) (fun hv => ⟨_, _, fill hw then_ hv hu⟩)
    fun {v s c₃} h₃ hv => ?_
  have := h₃.left_le
  exact .map ((ho c₃ (by omega)).le (by omega)) fun hu => fill hw then_ hv hu

theorem answers_elsePart {rounds rounds' m : Nat} {c : Cursor} (hb : c.left < b) (hl : c.left < limit)
    (hr : c.left < rounds) (hm : m ≤ n) (hr' : m ≤ rounds') :
    Answers m ElsePart (elsePart limit' block' rounds') c (elsePart limit block rounds c) := by
  induction rounds generalizing rounds' m c with
  | zero => omega
  | succ rounds ih =>
    refine .succ hr' ?_
    intro rounds' hr'
    have left_one {c₁ : Cursor} (h : c.Over [c.token] c₁) : c₁.left < c.left := h.left_add
    by_cases hs' : Rule.elsePart.Starts c.token
    · have ht := hs'
      simp only [Rule.Starts, List.mem_cons, List.not_mem_nil, or_false] at ht
      obtain ht | ht | ht := ht
      · rw [elsePart_elsif ht]
        refine .congr (fun d _ hd => elsePart_elsif (hd.trans ht))
          (.advance (by simp [ht]) ?_ fun c₁ h₁ => ?_)
        · obtain ⟨w, s, hw⟩ := exists_arm
          exact ⟨w, some s, ht ▸ .elsif hw⟩
        · have := left_one h₁
          have arm : Answers (m - 1) Arm (arm limit' block' (elsePart limit' block' rounds')) c₁
              (arm limit block (elsePart limit block rounds) c₁) :=
            answers_arm (by omega) (fun c hc => (hs c hc).le (by omega))
              (fun c₂ h₂ => ih (by omega) (by omega) (by omega) (by omega) (by omega)) (by omega) (by omega)
          exact .map arm fun hw => ht ▸ .elsif hw
      · rw [elsePart_else ht]
        have else_ {w s t} (hw : Block w s) (h : t = .keyword .fi) :
            ElsePart (c.token :: (w ++ [t])) (some s) := by
          rw [ht, h]; exact .else hw
        refine .congr (fun d _ hd => elsePart_else (hd.trans ht)) (.advance (by simp [ht]) ?_ fun c₁ h₁ => ?_)
        · obtain ⟨w, s, hw⟩ := exists_block
          exact ⟨_, _, else_ hw rfl⟩
        · have := left_one h₁
          refine .bind ((hs c₁ (by omega)).le (by omega)) (fun hw => ⟨_, _, else_ hw rfl⟩) fun _ hw => ?_
          exact .close (by simp) fun t h => else_ hw (Token.kind_eq_keyword h)
      · rw [elsePart_fi ht]
        exact .congr (fun d _ hd => elsePart_fi (hd.trans ht)) (.last (by simp [ht]) (ht ▸ .fi))
    · rw [elsePart_unrecognized hs']
      refine .congr (fun d _ hd => elsePart_unrecognized (hd ▸ hs')) (.unrecognized fun t ht => ?_)
      obtain ⟨w, s, hw⟩ := exists_arm
      obtain ⟨v, s', hv⟩ := exists_block
      simp only [Rule.Starts, List.mem_cons, List.not_mem_nil, or_false] at ht
      obtain rfl | rfl | rfl := ht
      · exact ⟨_, _, .elsif hw⟩
      · exact ⟨_, _, .else hv⟩
      · exact ⟨_, _, .fi⟩

end

section
variable {limit limit' : Nat}

theorem answers_statement {depth depth' n : Nat} (hn : n ≤ limit') {c : Cursor} (hl : c.left < limit)
    (hd : c.left < depth) (hd' : n ≤ depth') :
    Answers n Statement (statement limit' depth') c (statement limit depth c) := by
  induction depth generalizing c depth' n with
  | zero => omega
  | succ depth ih =>
    refine .succ hd' ?_
    intro depth' hd'
    obtain ⟨u, e, hu⟩ := exists_phrase .expr
    obtain ⟨v, test, hv⟩ := exists_phrase .bool
    obtain ⟨w, s, hw⟩ := exists_block
    obtain ⟨w', s', hw'⟩ := exists_arm
    have inner : ∀ c₁, c₁.left < c.left → Answers (n - 1) Block (block limit' (statement limit' depth')) c₁
        (block limit (statement limit depth) c₁) := fun c₁ _ =>
      answers_block (b := c.left) (fun _ _ => ih (by omega) (by omega) (by omega) (by omega))
        (by omega) (by omega) (by omega)
    have left_one {c c₁ : Cursor} (h : c.Over [c.token] c₁) : c₁.left < c.left := h.left_add
    by_cases hs : Rule.statement.Starts c.token
    · obtain ⟨x, ht⟩ | ht | ht | ⟨a, ht⟩ | ⟨m, ht⟩ := Token.startsStatement_iff.mp hs
      · have assign {w t e} (h : t = .symbol .assign) (hw : Phrase .expr w e) :
            Statement (c.token :: (t :: w)) (.assign x e) := by
          rw [ht, h]; exact .assign hw
        rw [statement_identifier ht]
        refine .congr (fun d _ hd => statement_identifier (hd.trans ht))
          (.advance (by simp [ht]) ?_ fun c₁ h₁ => ?_)
        · exact ⟨_, _, assign rfl hu⟩
        · have := left_one h₁
          refine .expect (by simp) (fun t h => ⟨_, _, assign (Token.kind_eq_symbol h) hu⟩) ?_
          intro c₂ h h₂
          have := left_one h₂
          have value : Answers (n - 1 - 1) (Phrase .expr) (expression limit') c₂ (expression limit c₂) :=
            answers_expression (by omega) (by omega)
          exact .map value fun hw => assign (Token.kind_eq_symbol h) hw
      · have while_ {v w t t' test s} (h : t = .keyword .do) (h' : t' = .keyword .od)
          (hv : Phrase .bool v test)
            (hw : Block w s) : Statement (c.token :: (v ++ (t :: (w ++ [t'])))) (.while test s) := by
          rw [ht, h, h']; simpa using Statement.while hv hw
        rw [statement_while ht]
        refine .congr (fun d _ hd => statement_while (hd.trans ht))
          (.advance (by simp [ht]) ?_ fun c₁ h₁ => ?_)
        · exact ⟨_, _, while_ rfl rfl hv hw⟩
        · have := left_one h₁
          refine .bind (answers_condition (by omega) (by omega)) (fun hv => ⟨_, _, while_ rfl rfl hv hw⟩)
            fun {v test c₂} h₂ hv => ?_
          have := h₂.left_le
          refine .expect (by simp) (fun t h => ⟨_, _, while_ (Token.kind_eq_keyword h) rfl hv hw⟩) ?_
          intro c₃ h h₃
          have := left_one h₃
          refine .bind ((inner c₃ (by omega)).le (by omega))
            (fun hw => ⟨_, _, while_ (Token.kind_eq_keyword h) rfl hv hw⟩) fun _ hw => ?_
          exact .close (by simp) fun t h' => while_ (Token.kind_eq_keyword h) (Token.kind_eq_keyword h') hv hw
      · rw [statement_if ht]
        refine .congr (fun d _ hd => statement_if (hd.trans ht)) (.advance (by simp [ht]) ?_ fun c₁ h₁ => ?_)
        · exact ⟨w', s', ht ▸ .if hw'⟩
        · have := left_one h₁
          have elsePart : ∀ c₂, c₂.left < c₁.left → Answers (n - 1) ElsePart
              (elsePart limit' (block limit' (statement limit' depth')) limit') c₂
              (elsePart limit (block limit (statement limit depth)) limit c₂) := fun c₂ _ =>
            answers_elsePart (by omega) inner (by omega) (by omega) (by omega) (Nat.le_refl _) (by omega)
          exact .imp (fun w s h => ht ▸ .if h) (answers_arm (by omega) inner elsePart (by omega) (by omega))
      · rw [statement_action ht]
        exact .congr (fun d _ hd => statement_action (hd.trans ht)) (.last (by simp [ht]) (ht ▸ .action))
      · rw [statement_motion ht]
        refine .congr (fun d _ hd => statement_motion (hd.trans ht))
          (.advance (by simp [ht]) ?_ fun c₁ h₁ => ?_)
        · exact ⟨u, .motion m e, ht ▸ .motion hu⟩
        · have := left_one h₁
          have amount : Answers (n - 1) (Phrase .expr) (expression limit') c₁ (expression limit c₁) :=
            answers_expression (by omega) (by omega)
          exact .map amount fun hw => ht ▸ .motion hw
    · rw [statement_unrecognized hs]
      refine .congr (fun d _ hd => statement_unrecognized (hd ▸ hs)) (.unrecognized fun t ht => ?_)
      exact exists_statement ht

/-! ## Programs -/

theorem answers_finish {n : Nat} {c : Cursor} {w : List Token} {s : Stmt} (hw : Block w s) :
    Answers n (fun v p => Derives (w ++ v) p) (finish s) c (finish s c) := by
  by_cases ht : c.token = .eot
  · rw [finish, if_pos ht]
    refine .congr (fun d _ hd => if_pos (hd.trans ht)) (.pure ?_)
    rw [List.append_nil]; exact derives_block hw
  · rw [finish, if_neg ht]
    exact .congr (fun d _ hd => if_neg (hd ▸ ht)) (.unrecognized fun t ht => exists_derives hw ht)

theorem answers_program {n : Nat} (hn : n ≤ limit') {c : Cursor} (hl : c.left < limit) :
    Answers n Derives (program limit') c (program limit c) := by
  by_cases ht : c.token = .eot
  · rw [program_eot ht]
    exact .congr (fun d _ hd => program_eot (hd.trans ht)) (.pure .none)
  · rw [program_block ht]
    have first : Answers n Block (block limit' (statement limit' limit')) c
        (block limit (statement limit limit) c) :=
      answers_block (fun _ hc => answers_statement hn hc hc hn) hl hl hn
    refine .congr (fun d _ hd => program_block (hd ▸ ht))
      (.bind first (fun {w s} hw => ⟨[], ⟨[s]⟩, ?_⟩) fun _ hw => ?_)
    · rw [List.append_nil]; exact derives_block hw
    · exact answers_finish hw

theorem token_of_program {c c' : Cursor} {p : Program} (h : program limit c = .ok (p, c')) :
    c'.token = .eot := by
  by_cases ht : c.token = .eot
  · rw [program_eot ht] at h
    cases h
    exact ht
  · rw [program_block ht] at h
    cases hb : block limit (statement limit limit) c with
    | error e => rw [hb] at h; cases h
    | ok r =>
      rw [hb] at h
      replace h : finish r.1 r.2 = .ok (p, c') := h
      unfold finish at h
      split at h
      · rename_i hr; cases h; exact hr
      · cases h

end

end Parser

end Turtle
