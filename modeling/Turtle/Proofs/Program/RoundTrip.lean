import Turtle.Proofs.Grammar.Acceptance
import Turtle.Proofs.Program.Written

/-!
# There and back

The text of a program is read back if and only if all comparisons in it begin with a name or a number. A
left side of any other form is written in parentheses, and where a condition is expected these open a
condition: inside there would have to be a comparison, but there is only a number (`isBare_of_boolean`).
-/

namespace Turtle

open Grammar

section
variable {limit depth : Nat} {c c' : Cursor} {w v : List Token}

/-! ## Conditions -/

/-- No condition is a number in parentheses: behind the number a comparison would have to follow. -/
theorem boolean_ne_ok {e : Expr} (h : Phrase .expr w e) (hp : w.head? ≠ some (.symbol .lparen))
    (hw : c.Over w c') (ht : c'.token = .symbol .rparen) (hl : c.left < limit) {r : Expr × Cursor} :
    Parser.boolean limit depth c ≠ .ok r := by
  intro hok
  cases depth with
  | zero => cases hok
  | succ depth =>
    obtain ⟨t, u, rfl, hs⟩ := starts_of_phrase h (by simp)
    have left := expression_of_phrase h hw (ht ▸ endsAt_rparen _) hl
    have none : Operator.relational? c'.token = none := by rw [ht]; rfl
    rw [Parser.boolean_comparison, Parser.comparison_eq, left, Parser.ok_bind] at hok
    · cases (Parser.compareWith_none none).symm.trans hok
    · rw [hw.head]
      rintro rfl
      simp [Rule.Starts] at hs
    · rw [hw.head]
      rintro rfl
      exact hp rfl

variable {k k' : Rank} {ops : List Operator}

theorem ok_of_chain (hk : k.chain? = some (ops, k')) {r : Expr × Cursor}
    (h : k.parser limit depth c = .ok r) :
    ∃ r', k'.parser limit depth c = .ok r' := by
  rw [Rank.parser_chain hk, Parser.chain] at h
  obtain ⟨r', hr, -⟩ := Parser.ok_of_bind h
  exact ⟨r', hr⟩

theorem ok_of_joined (hk : k.chain? = some (ops, k')) {op : Operator} (ho : op ∈ ops) {e : Expr}
    (he : Phrase k' w e) (hw : c.Over (w ++ op.token :: v) c') (hl : c.left < limit) (hd : c.left < depth)
    {r : Expr × Cursor} (h : k.parser limit depth c = .ok r) :
    ∃ c₁ r', c₁.left < c.left ∧ c₁.Over v c' ∧ k'.parser limit depth c₁ = .ok r' := by
  obtain ⟨c₁, h₁, h₂⟩ := Cursor.Over.append_iff.mp hw
  obtain ⟨ht, c₂, ha, hlt, h₃⟩ := h₂.uncons
  have := h₁.left_le
  obtain ⟨n, rfl⟩ : ∃ n, limit = n + 1 := ⟨limit - 1, by omega⟩
  have first := (reads_of_phrase he).1 h₁ (ht ▸ Rank.endsAt_operator hk ho) hl hd
  rw [Rank.parser_chain hk, Parser.chain, first, Parser.ok_bind] at h
  dsimp only at h
  rw [Parser.chainRest_some (ht ▸ Operator.among_token ho), ha, Parser.ok_bind] at h
  obtain ⟨r', hr, -⟩ := Parser.ok_of_bind h
  exact ⟨c₂, r', by omega, h₃, hr⟩

theorem ok_of_bool {r : Expr × Cursor} (h : Rank.bool.parser limit depth c = .ok r) :
    ∃ r', Parser.boolean limit depth c = .ok r' := by
  obtain ⟨r', h⟩ := ok_of_chain rfl h
  exact ok_of_chain (k := .boolTerm) rfl h

theorem ok_of_connective {op : Operator} (ho : op ∈ [.and, .or]) {e : Expr} (he : Phrase .boolFactor w e)
    (hw : c.Over (w ++ op.token :: v) c') (hl : c.left < limit) (hd : c.left < depth) {r : Expr × Cursor}
    (h : Rank.bool.parser limit depth c = .ok r) :
    ∃ c₁ r', c₁.left < c.left ∧ c₁.Over v c' ∧ Parser.boolean limit depth c₁ = .ok r' := by
  cases op with
  | and =>
    obtain ⟨r, h⟩ := ok_of_chain rfl h
    exact ok_of_joined (k := .boolTerm) rfl (by simp) he hw hl hd h
  | or =>
    obtain ⟨c₁, r, hlt, h₁, h⟩ := ok_of_joined rfl (by simp) (.operand rfl he) hw hl hd h
    obtain ⟨r, h⟩ := ok_of_chain (k := .boolTerm) rfl h
    exact ⟨c₁, r, hlt, h₁, h⟩
  | _ => simp at ho

theorem ok_of_parens (hw : c.Over (.symbol .lparen :: w ++ [.symbol .rparen] ++ v) c') {r : Expr × Cursor}
    (h : Parser.boolean limit depth c = .ok r) :
    ∃ d c₁ c₂ r', depth = d + 1 ∧ c₁.left < c.left ∧ c₁.Over w c₂ ∧ c₂.token = .symbol .rparen ∧
      Rank.bool.parser limit d c₁ = .ok r' := by
  cases depth with
  | zero => cases h
  | succ d =>
    obtain ⟨c₀, hw, -⟩ := Cursor.Over.append_iff.mp hw
    obtain ⟨ht, c₁, ha, hlt, h₁⟩ := hw.uncons
    obtain ⟨c₂, h₂, h₃⟩ := Cursor.Over.append_iff.mp h₁
    rw [Parser.boolean_lparen ht, ha, Parser.ok_bind] at h
    obtain ⟨r', hr, -⟩ := Parser.ok_of_bind h
    exact ⟨d, c₁, c₂, r', rfl, hlt, h₂, h₃.head, hr⟩

theorem isBare_of_boolean {e : Expr} (h : e.IsAmount) (hw : c.Over (e.tokens ++ v) c') (hl : c.left < limit)
    {r : Expr × Cursor} (hok : Parser.boolean limit depth c = .ok r) : e.isBare = true := by
  induction h generalizing depth c c' v r with
  | «variable» | constant => rfl
  | negate h _ =>
    obtain ⟨d, c₁, c₂, r', -, hlt, h₁, ht, hr⟩ := ok_of_parens hw hok
    obtain ⟨r', hr⟩ := ok_of_bool hr
    have phrase : Phrase .expr _ _ := .operand rfl (.operand rfl (.minus (phrase_of_isAmount h)))
    exact absurd hr (boolean_ne_ok phrase (by simp) h₁ ht (by omega))
  | @binary op left right ho hl' hr' ihl _ =>
    obtain ⟨d, c₁, c₂, r', -, hlt, h₁, ht, hr⟩ := ok_of_parens hw hok
    obtain ⟨r', hr⟩ := ok_of_bool hr
    obtain ⟨t, he, hp⟩ := Expr.tokens_of_isBare (ihl h₁ (by omega) hr)
    have phrase := sum_of_phrases ho (phrase_of_isAmount hl') (phrase_of_isAmount hr')
    have head : (left.tokens ++ op.token :: right.tokens).head? ≠ some (.symbol .lparen) := by
      rw [he]
      exact fun he => hp (Option.some.inj he)
    exact absurd hr (boolean_ne_ok phrase head h₁ ht (by omega))

theorem leadsBare_of_boolean {e : Expr} (h : e.IsTest) (hw : c.Over (e.tokens ++ v) c') (hl : c.left < limit)
    (hd : c.left < depth) {r : Expr × Cursor} (hok : Parser.boolean limit depth c = .ok r) :
    ∀ d ∈ e.parts, d.LeadsBare := by
  induction h generalizing depth c c' v r with
  | not h ih =>
    obtain ⟨d, c₁, c₂, r', rfl, hlt, h₁, -, hr⟩ := ok_of_parens hw hok
    obtain ⟨r', hr⟩ := ok_of_bool hr
    obtain ⟨d, rfl⟩ : ∃ d', d = d' + 1 := ⟨d - 1, by omega⟩
    obtain ⟨ht, c₃, ha, hlt', h₃⟩ := h₁.uncons
    rw [Parser.boolean_not ht, ha, Parser.ok_bind] at hr
    obtain ⟨r', hr, -⟩ := Parser.ok_of_bind hr
    rw [← List.append_nil (Expr.tokens _)] at h₃
    exact List.forall_mem_cons.mpr ⟨trivial, ih h₃ (by omega) (by omega) hr⟩
  | @joined op left right ho hl' hr' ihl ihr =>
    obtain ⟨d, c₁, c₂, r', rfl, hlt, h₁, -, hr⟩ := ok_of_parens hw hok
    obtain ⟨r', first⟩ := ok_of_bool hr
    have bareL := ihl h₁ (by omega) (by omega) first
    obtain ⟨c₃, r', hlt', h₃, hr⟩ :=
      ok_of_connective ho (phrase_of_isTest hl' bareL) h₁ (by omega) (by omega) hr
    rw [← List.append_nil (Expr.tokens _)] at h₃
    have bareR := ihr h₃ (by omega) (by omega) hr
    refine List.forall_mem_cons.mpr ⟨?_, List.forall_mem_append.mpr ⟨bareL, bareR⟩⟩
    intro hrel
    cases op <;> simp at ho <;> cases hrel
  | compared ho hl' hr' =>
    obtain ⟨d, c₁, c₂, r', rfl, hlt, h₁, -, hr⟩ := ok_of_parens hw hok
    obtain ⟨r', hr⟩ := ok_of_bool hr
    refine List.forall_mem_cons.mpr ⟨?_, List.forall_mem_append.mpr ⟨hl'.leadsBare, hr'.leadsBare⟩⟩
    intro _
    exact isBare_of_boolean hl' h₁ (by omega) hr

theorem leadsBare_of_condition {e : Expr} (h : e.IsTest) {kw : Keyword} (hk : kw ∉ [.and, .or])
    (hw : c.Over (e.tokens ++ .keyword kw :: v) c') (hl : c.left < limit) {α : Type}
    {next : Expr × Cursor → Except SyntaxError α} {a : α}
    (hok : (Parser.condition limit c >>= next) = .ok a) :
    (∀ d ∈ e.parts, d.LeadsBare) ∧ ∃ c₁ c₂, next (e.reread, c₁) = .ok a ∧ c₁.expect (.keyword kw) = .ok c₂ ∧
      c₂.left < c.left ∧ c₂.Over v c' := by
  obtain ⟨r, hr, -⟩ := Parser.ok_of_bind hok
  obtain ⟨r, hr⟩ := ok_of_bool hr
  have bare := leadsBare_of_boolean h hw hl hl hr
  obtain ⟨c₁, h₁, h₂⟩ := Cursor.Over.append_iff.mp hw
  obtain ⟨c₂, h₃, h₄⟩ := Cursor.Over.append_iff.mp (show c₁.Over ([_] ++ _) c' from h₂)
  have test := condition_of_phrase (condition_of_isTest h bare) h₁ (h₂.head ▸ endsAt_keyword hk _) hl
  have := h₁.left_le
  have := h₃.left_add
  rw [List.length_singleton] at this
  rw [test] at hok
  exact ⟨bare, c₁, c₂, hok, h₃.expect, by omega, h₄⟩

end

/-! ## Statements -/

theorem starts_of_isSingle {s : Stmt} (h : s.IsSingle) :
    ∃ t v, s.tokens = t :: v ∧ t.startsStatement = true := by
  cases h with
  | assign | «while» | conditional => exact ⟨_, _, rfl, rfl⟩
  | @action a => exact ⟨_, _, rfl, by cases a <;> rfl⟩
  | @motion m => exact ⟨_, _, rfl, by cases m <;> rfl⟩

section
variable {c c' : Cursor}

theorem starts_over_series {ss : List Stmt} (h : Stmt.IsSeries ss) (hw : c.Over (Stmt.tokensOfAll ss) c') :
    c.token.startsStatement = true := by
  cases h with
  | one h | more h _ =>
    obtain ⟨t, v, hs, ht⟩ := starts_of_isSingle h
    rw [Stmt.tokensOfAll, hs] at hw
    rw [hw.head]
    exact ht

theorem ends_of_alternative {o : Option Stmt} (hw : c.Over (Stmt.tokensOfAlternative o) c') :
    Rank.expr.EndsAt c.token ∧ c.token.startsStatement = false := by
  cases o <;> rw [hw.head] <;> exact ⟨endsAt_keyword (by decide) _, rfl⟩

end

mutual

theorem leadsBare_of_statement {s : Stmt} (h : s.IsSingle) {limit depth : Nat} {c c' : Cursor}
    (hw : c.Over s.tokens c') (hl : c.left < limit) (hd : c.left < depth) {r : Stmt × Cursor}
    (hok : Parser.statement limit depth c = .ok r) : ∀ d ∈ s.parts, d.LeadsBare := by
  obtain ⟨d, rfl⟩ : ∃ d, depth = d + 1 := ⟨depth - 1, by omega⟩
  match h with
  | .assign _ he => exact he.leadsBare
  | .while hc hs =>
    rw [Stmt.tokens, List.cons_append, List.cons_append, List.append_assoc, List.cons_append] at hw
    obtain ⟨ht, c₁, ha, hlt, h₁⟩ := hw.uncons
    rw [Parser.statement_while ht, ha, Parser.ok_bind] at hok
    obtain ⟨bareC, c₂, c₃, hok, hdo, hlt', h₃⟩ := leadsBare_of_condition hc (by decide) h₁ (by omega) hok
    obtain ⟨c₄, h₄, -⟩ := Cursor.Over.append_iff.mp h₃
    dsimp only at hok
    rw [hdo, Parser.ok_bind] at hok
    obtain ⟨r, body, -⟩ := Parser.ok_of_bind hok
    exact List.forall_mem_append.mpr ⟨bareC, leadsBare_of_block hs h₄ (by omega) (by omega) body⟩
  | .conditional hc hs ho =>
    rw [Stmt.tokens, List.append_assoc, List.cons_append] at hw
    obtain ⟨ht, c₁, ha, hlt, h₁⟩ := hw.uncons
    rw [Parser.statement_if ht, ha, Parser.ok_bind, Parser.arm] at hok
    obtain ⟨bareC, c₂, c₃, hok, hthen, hlt', h₃⟩ := leadsBare_of_condition hc (by decide) h₁ (by omega) hok
    obtain ⟨c₄, h₄, h₅⟩ := Cursor.Over.append_iff.mp h₃
    obtain ⟨ends, starts⟩ := ends_of_alternative h₅
    dsimp only at hok
    rw [hthen, Parser.ok_bind] at hok
    obtain ⟨r, body, -⟩ := Parser.ok_of_bind hok
    have bareS := leadsBare_of_block hs h₄ (by omega) (by omega) body
    -- the body is now known to be read as it is written, so that what follows it is reached
    have body := reads_of_block (block_of_isBody hs bareS) h₄ ends starts (show c₃.left < limit by omega)
      (show c₃.left < d by omega)
    have := h₄.left_le
    rw [body, Parser.ok_bind] at hok
    obtain ⟨r, rest, -⟩ := Parser.ok_of_bind hok
    have bareO := leadsBare_of_elsePart ho h₅ (by omega) (by omega) (by omega) rest
    exact List.forall_mem_append.mpr ⟨bareC, List.forall_mem_append.mpr ⟨bareS, bareO⟩⟩
  | .action => exact List.forall_mem_nil _
  | .motion he => exact he.leadsBare

theorem leadsBare_of_block {s : Stmt} (h : s.IsBody) {limit depth : Nat} {c c' : Cursor}
    (hw : c.Over s.tokens c') (hl : c.left < limit) (hd : c.left < depth) {r : Stmt × Cursor}
    (hok : Parser.block limit (Parser.statement limit depth) c = .ok r) : ∀ d ∈ s.parts, d.LeadsBare := by
  match h with
  | .block h =>
    rw [Parser.block_eq (starts_over_series h hw)] at hok
    obtain ⟨r, series, -⟩ := Parser.ok_of_bind hok
    exact leadsBare_of_blockRest h hw hl hd (by omega) series

theorem leadsBare_of_blockRest {ss : List Stmt} (h : Stmt.IsSeries ss) {limit depth rounds : Nat}
    {c c' : Cursor} (hw : c.Over (Stmt.tokensOfAll ss) c') (hl : c.left < limit) (hd : c.left < depth)
    (hr : c.left < rounds) {r : List Stmt × Cursor}
    (hok : Parser.blockRest (Parser.statement limit depth) rounds c = .ok r) :
    ∀ d ∈ Stmt.partsOfAll ss, d.LeadsBare := by
  obtain ⟨n, rfl⟩ : ∃ n, rounds = n + 1 := ⟨rounds - 1, by omega⟩
  rw [Parser.blockRest_more (starts_over_series h hw)] at hok
  obtain ⟨r, first, -⟩ := Parser.ok_of_bind hok
  match h with
  | .one h =>
    obtain ⟨c₁, h₁, -⟩ := Cursor.Over.append_iff.mp hw
    exact List.forall_mem_append.mpr ⟨leadsBare_of_statement h h₁ hl hd first, List.forall_mem_nil _⟩
  | .more h hs =>
    obtain ⟨c₁, h₁, h₂⟩ := Cursor.Over.append_iff.mp hw
    have bare := leadsBare_of_statement h h₁ hl hd first
    have statement := statement_of_isSingle h bare
    have := h₁.left_add
    have := length_pos_of_statement statement
    rw [reads_of_statement statement h₁ (endsAt_of_startsStatement (starts_over_series hs h₂)) hl hd,
      Parser.ok_bind] at hok
    obtain ⟨r, rest, -⟩ := Parser.ok_of_bind hok
    exact List.forall_mem_append.mpr ⟨bare, leadsBare_of_blockRest hs h₂ (by omega) (by omega)
      (by omega) rest⟩

theorem leadsBare_of_elsePart {o : Option Stmt} (h : Stmt.IsAlternative o) {limit depth rounds : Nat}
    {c c' : Cursor} (hw : c.Over (Stmt.tokensOfAlternative o) c') (hl : c.left < limit)
    (hd : c.left < depth) (hr : c.left < rounds) {r : Option Stmt × Cursor}
    (hok : Parser.elsePart limit (Parser.block limit (Parser.statement limit depth)) rounds c = .ok r) :
    ∀ d ∈ Stmt.partsOfAlternative o, d.LeadsBare := by
  cases o with
  | none => exact List.forall_mem_nil _
  | some s =>
    obtain ⟨n, rfl⟩ : ∃ n, rounds = n + 1 := ⟨rounds - 1, by omega⟩
    obtain ⟨ht, c₁, ha, hlt, h₁⟩ := hw.uncons
    obtain ⟨c₂, h₂, -⟩ := Cursor.Over.append_iff.mp h₁
    rw [Parser.elsePart_else ht, ha, Parser.ok_bind] at hok
    obtain ⟨r, body, -⟩ := Parser.ok_of_bind hok
    match h with
    | .arm h =>
      obtain ⟨r, first, -⟩ := Parser.ok_of_bind body
      exact leadsBare_of_statement h h₂ (by omega) (by omega) first
    | .body h => exact leadsBare_of_block h h₂ (by omega) (by omega) body

end

/-! ## Programs -/

namespace Program

theorem leadsBare_of_read {p : Program} (h : p.IsWhole) {limit : Nat} {c c' : Cursor}
    (hw : c.Over p.tokens c') (hl : c.left < limit) {r : Program × Cursor}
    (hok : Parser.program limit c = .ok r) :
    ∀ d ∈ p.parts, d.LeadsBare := by
  cases h with
  | nothing => exact List.forall_mem_nil _
  | body h =>
    obtain ⟨c₁, h₁, -⟩ := Cursor.Over.append_iff.mp hw
    have ht : c.token ≠ .eot := by
      cases h with
      | block h =>
        intro he
        have starts := starts_over_series h h₁
        rw [he] at starts
        cases starts
    rw [Parser.program_block ht] at hok
    obtain ⟨r, body, -⟩ := Parser.ok_of_bind hok
    exact List.forall_mem_append.mpr ⟨leadsBare_of_block h h₁ hl hl body, List.forall_mem_nil _⟩

section
variable {source : String} {ts : List Token} (h : answersOf source.toList = ts.map .ok)
include h

theorem answers_of_spelled : (readings source).map Reading.answer = (ts ++ [Token.eot]).map .ok := by
  rw [answers_readings, h, List.map_append]
  rfl

theorem not_mem_eot_of_spelled : Token.eot ∉ ts := by
  intro ht
  have mem : .ok Token.eot ∈ answersOf source.toList := by
    rw [h]
    exact List.mem_map_of_mem ht
  exact isSpelled_of_mem mem

theorem ofSource_eq_ok_iff {p : Program} : ofSource source = .ok p ↔ Derives ts p := by
  rw [ofSource, ofReadings_eq_ok_iff_derives (answers_of_spelled h), takeWhile_append_eot,
    takeWhile_of_not_mem (not_mem_eot_of_spelled h)]

end

section
variable {p : Program} (h : p.IsWhole)
include h

theorem answersOf_text : answersOf p.text.toList = p.tokens.map .ok := by
  rw [text, String.toList_ofList, answersOf_chars h]

theorem leadsBare_of_text {q : Program} (hq : ofSource p.text = .ok q) : ∀ d ∈ p.parts, d.LeadsBare := by
  obtain ⟨c', hr⟩ := ofReadings_eq_ok_iff.mp hq
  have spelled := answersOf_text h
  have answers := answers_of_spelled spelled
  rw [List.map_append] at answers
  obtain ⟨us, vs, hrs, hu, hv⟩ := List.map_eq_append_iff.mp answers
  obtain ⟨c₁, hn, -⟩ := (Cursor.next_eot_iff hv (lineAfter 1 us)).mpr rfl
  obtain ⟨c, hc, hw⟩ := Cursor.exists_over hu (not_mem_eot_of_spelled spelled) hn
  rw [← hrs] at hc
  have := Cursor.left_next hc
  rw [read_eq hc] at hr
  exact leadsBare_of_read h hw (by omega) hr

theorem ofSource_text_eq_ok_iff {q : Program} :
    ofSource p.text = .ok q ↔ (∀ d ∈ p.parts, d.LeadsBare) ∧ q = p.reread := by
  constructor
  · intro hq
    have bare := leadsBare_of_text h hq
    exact ⟨bare, derives_unique ((ofSource_eq_ok_iff (answersOf_text h)).mp hq) (derives_tokens h bare)⟩
  · intro hq
    obtain ⟨bare, rfl⟩ := hq
    exact (ofSource_eq_ok_iff (answersOf_text h)).mpr (derives_tokens h bare)

end

/-- The text of a program that was read from a source is read back if and only if each comparison in the
program begins with a name or a number. It is read back as the program in which arms are bodies and
infinite numbers are names, and without infinite numbers each run of it is one of the program. -/
theorem ofSource_text {source : String} {p : Program} (h : ofSource source = .ok p) :
    ((∃ q, ofSource p.text = .ok q) ↔ ∀ d ∈ p.parts, d.LeadsBare) ∧
    ∀ q, ofSource p.text = .ok q → q = p.reread ∧
      ((∀ d ∈ p.parts, d.IsFinite) → ∀ {σ : Type} [Sink σ] (limit : Nat) (m : Machine σ),
        q.exec limit m = p.exec limit m) := by
  have whole := isWhole_of_source h
  refine ⟨⟨?_, ?_⟩, ?_⟩
  · intro hq
    obtain ⟨q, hq⟩ := hq
    exact leadsBare_of_text whole hq
  · intro bare
    exact ⟨p.reread, (ofSource_text_eq_ok_iff whole).mpr ⟨bare, rfl⟩⟩
  · intro q hq
    obtain ⟨-, rfl⟩ := (ofSource_text_eq_ok_iff whole).mp hq
    exact ⟨rfl, fun finite _ _ _ => exec_reread finite⟩

/-- A sum on the left of a comparison can be read, but not the text that is written for it. -/
theorem ofSource_text_sum :
    ∃ p, ofSource "WHILE a + b < c DO HOME OD" = .ok p ∧ ¬ ∃ q, ofSource p.text = .ok q := by
  have name : ∀ {c : Char}, Lexeme.isWordStart c = true → Keyword.ofText? (.ofList [c]) = none →
      Spells [c] [.identifier (.ofList [c])] := by
    intro c hc hf
    have isName : Lexeme.IsName (.ofList [c]) := ⟨⟨c, [], String.toList_ofList, hc, by simp⟩, hf⟩
    have spells := Spells.name isName
    rwa [String.toList_ofList] at spells
  have test := (name (c := 'a') rfl rfl).blank ((Spells.symbol .plus).blank ((name (c := 'b') rfl rfl).blank
    ((Spells.symbol .less).blank (name (c := 'c') rfl rfl))))
  have spells := (Spells.keyword .while).blank
    (test.blank ((Spells.keyword .do).blank ((Spells.keyword .home).blank
    (Spells.keyword .od)))) [] (by simp [Bounded])
  rw [answersOf_nil, List.append_nil, List.append_nil] at spells
  have sum : Phrase .expr _ _ := sum_of_phrases (show Operator.add.isArithmetic = true from rfl)
      (.name (x := "a")) (.name (x := "b"))
  have less : Phrase .comparison _ _ := .compared (show Operator.less.isRelational = true from rfl) sum
    (.operand rfl (.operand rfl (.name (x := "c"))))
  have loop : Statement _ _ := .while (.operand rfl (.operand rfl (.comparison (by simp) less)))
    (.block (.one (.action (a := .home))))
  have read := (@ofSource_eq_ok_iff "WHILE a + b < c DO HOME OD" _ spells _).mpr
    (derives_block (.block (.one loop)))
  refine ⟨_, read, fun again => ?_⟩
  have bare := (ofSource_text read).1.mp again
  exact absurd (bare _ (List.mem_append_left _ List.mem_cons_self) rfl) Bool.false_ne_true

end Program

end Turtle
