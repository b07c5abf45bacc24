import Turtle.Proofs.Lexing.Longest
import Turtle.Proofs.Program.RoundTrip

/-!
# Every shape has a source

The trees that sources stand for are all those of the shape of a program. Such a tree has a text of its
own (`Program.ofSource_source`): every expression is in parentheses, before the left side of a
comparison stands a plus, so that a parenthesis which opens there opens no condition, and an arm is
written as one.
-/

namespace Turtle

open Grammar

/-! ## Tokens written out -/

namespace Token

/-- The text of a token. The name of an infinite number would not be read as one. -/
def spelling : Token → List Char
  | .real v => if v.isInfinite then ['1', 'e', '3', '9'] else v.chars
  | t => t.text.toList

end Token

namespace Spells

theorem large : Spells ['1', 'e', '3', '9'] [.real (Magnitude.infinity.toNumber false)] := by
  intro r hr
  have stop : ∀ c ∈ r.head?, c.isDigit = false := fun c hc => (hr.number c hc).1
  have digits : ∀ c ∈ ['3', '9'], c.isDigit = true :=
    List.forall_mem_cons.mpr ⟨rfl, List.forall_mem_singleton.mpr rfl⟩
  have exponent : Numeral.splitExponent ('e' :: (['3', '9'] ++ r)) = (['e', '3', '9'], r) := by
    have sign := Numeral.splitSign_of_isSign (.inl rfl) ⟨by simp, digits⟩ r
    rw [List.nil_append] at sign
    rw [Numeral.splitExponent, sign]
    dsimp only
    rw [takeWhile_append_stop digits stop, dropWhile_append_stop digits stop]
    rfl
  have scan : Numeral.scan? ('1' :: 'e' :: (['3', '9'] ++ r)) = some (⟨['1'], [], ['e', '3', '9']⟩, r) := by
    rw [Numeral.scan?, show Numeral.splitPoint _ = ([], 'e' :: (['3', '9'] ++ r)) from rfl, exponent]
    rfl
  have value : Lexeme.answer? ⟨(Number.ofChars ['1', 'e', '3', '9']).toOption.map .real,
    ['1', 'e', '3', '9']⟩ =
      some (.ok (.real (Magnitude.infinity.toNumber false))) := by
    rw [Number.ofChars_large]
    rfl
  exact answersOf_scan (Lexeme.scan_digit rfl scan) value

theorem token {t : Token} (h : t.IsSpelled) (hc : t.isContent = true) : Spells t.spelling [t] := by
  cases t with
  | real v =>
    have spells := number h
    rw [Token.spelling]
    by_cases hi : v.isInfinite = true
    · obtain ⟨m, rfl⟩ := h
      rw [Number.isInfinite, Number.magnitude?_toNumber, decide_eq_true_eq, Option.some.injEq] at hi
      rw [hi, if_pos (by rw [Number.isInfinite, Number.magnitude?_toNumber]; exact decide_eq_true rfl)]
      exact large
    · rw [if_neg hi] at spells ⊢
      exact spells
  | identifier x => exact name h
  | keyword k => exact keyword k
  | symbol s => exact symbol s
  | filler f => cases hc
  | eot => cases hc

theorem tokens {ts : List Token} (h : ∀ t ∈ ts, t.IsSpelled) (hc : ∀ t ∈ ts, t.isContent = true) :
    Spells ([' '].intercalate (ts.map Token.spelling)) ts := by
  have each : List.Forall₂ Spells (ts.map Token.spelling) (ts.map fun t => [t]) := by
    rw [List.forall₂_map_left_iff, List.forall₂_map_right_iff, List.forall₂_same]
    exact fun t ht => token (h t ht) (hc t ht)
  have spells := joined (.inl rfl) each
  rwa [← List.flatMap_def, List.flatMap_singleton'] at spells

end Spells

/-! ## Trees written out -/

namespace Expr

/-- The tokens of an expression in parentheses of its own. A plus leaves no trace in a tree, but behind
it stands no condition. -/
def wording : Expr → List Token
  | .variable x => [.identifier x]
  | .constant v => [.real v]
  | .negate e => .symbol .lparen :: (.symbol .minus :: e.wording) ++ [.symbol .rparen]
  | .not e => .symbol .lparen :: (.keyword .not :: e.wording) ++ [.symbol .rparen]
  | .binary op l r =>
    let left := if op.isRelational then .symbol .plus :: l.wording else l.wording
    .symbol .lparen :: (left ++ op.token :: r.wording) ++ [.symbol .rparen]

end Expr

namespace Stmt

mutual

def wording : Stmt → List Token
  | .assign x e => .identifier x :: .symbol .assign :: e.wording
  | .block body => wordingOfAll body
  | .while c body => .keyword .while :: c.wording ++ .keyword .do :: body.wording ++ [.keyword .od]
  | .conditional c body other =>
    .keyword .if :: (c.wording ++ .keyword .then :: body.wording ++ wordingOfAlternative other)
  | .action a => [.keyword a.keyword]
  | .motion m e => .keyword m.keyword :: e.wording

def wordingOfAll : List Stmt → List Token
  | [] => []
  | s :: ss => s.wording ++ wordingOfAll ss

def wordingOfAlternative : Option Stmt → List Token
  | none => [.keyword .fi]
  | some (.conditional c body other) =>
    .keyword .elsif :: (c.wording ++ .keyword .then :: body.wording ++ wordingOfAlternative other)
  | some s => .keyword .else :: s.wording ++ [.keyword .fi]

end

end Stmt

def Program.wording (p : Program) : List Token := Stmt.wordingOfAll p.statements

/-- A text that is read as this program if any is. -/
def Program.source (p : Program) : String := .ofList ([' '].intercalate (p.wording.map Token.spelling))

/-! ## What is written derives the tree -/

/-- These tokens can be written out, and derive what `derives` says. -/
structure Words (derives : List Token → Prop) (w : List Token) : Prop where
  derives : derives w
  spelled : ∀ t ∈ w, t.IsSpelled

theorem phrase_expr {w : List Token} {e : Expr} (h : Phrase .factor w e) : Phrase .expr w e :=
  .operand rfl (.operand rfl h)

theorem phrase_bool {w : List Token} {e : Expr} (h : Phrase .boolFactor w e) : Phrase .bool w e :=
  .operand rfl (.operand rfl h)

theorem spelled_parens {w : List Token} (h : ∀ t ∈ w, t.IsSpelled) :
    ∀ t ∈ Token.symbol .lparen :: w ++ [.symbol .rparen], t.IsSpelled :=
  List.forall_mem_append.mpr ⟨List.forall_mem_cons.mpr ⟨trivial, h⟩, List.forall_mem_singleton.mpr trivial⟩

theorem spelled_binary (op : Operator) {w v : List Token} (hw : ∀ t ∈ w, t.IsSpelled)
    (hv : ∀ t ∈ v, t.IsSpelled) :
    ∀ t ∈ w ++ op.token :: v, t.IsSpelled := by
  have sign : op.token.IsSpelled := by cases op <;> trivial
  exact List.forall_mem_append.mpr ⟨hw, List.forall_mem_cons.mpr ⟨sign, hv⟩⟩

theorem words_amount {e : Expr} (h : e.IsAmount) : Words (Phrase .factor · e) e.wording := by
  induction h with
  | «variable» hx => exact ⟨.name, List.forall_mem_singleton.mpr hx⟩
  | constant hv => exact ⟨.number, List.forall_mem_singleton.mpr hv⟩
  | negate _ ih =>
    exact ⟨.parens (phrase_expr (.minus ih.derives)),
      spelled_parens (List.forall_mem_cons.mpr ⟨trivial, ih.spelled⟩)⟩
  | @binary op l r ho _ _ ihl ihr =>
    rw [Expr.wording, Operator.isRelational_of_isArithmetic ho]
    exact ⟨.parens (sum_of_phrases ho ihl.derives ihr.derives),
      spelled_parens (spelled_binary op ihl.spelled ihr.spelled)⟩

theorem words_test {e : Expr} (h : e.IsTest) : Words (Phrase .boolFactor · e) e.wording := by
  induction h with
  | not _ ih =>
    exact ⟨.condition (phrase_bool (.not ih.derives)),
      spelled_parens (List.forall_mem_cons.mpr ⟨trivial, ih.spelled⟩)⟩
  | @joined op l r ho _ _ ihl ihr =>
    have plain : op.isRelational = false := by revert ho; cases op <;> decide
    rw [Expr.wording, plain]
    exact ⟨.condition (joined_of_phrases ho ihl.derives ihr.derives),
      spelled_parens (spelled_binary op ihl.spelled ihr.spelled)⟩
  | @compared op l r ho hl hr =>
    have left := words_amount hl
    have right := words_amount hr
    have compared := Phrase.compared ho (phrase_expr (.plus left.derives)) (phrase_expr right.derives)
    rw [Expr.wording, if_pos ho]
    exact ⟨.condition (phrase_bool (.comparison nofun compared)),
      spelled_parens (spelled_binary op (List.forall_mem_cons.mpr ⟨trivial, left.spelled⟩) right.spelled)⟩

theorem words_arm {c : Expr} {s : Stmt} {o : Option Stmt} (hc : c.IsTest) (hs : Words (Block · s) s.wording)
    (ho : Words (ElsePart · o) (Stmt.wordingOfAlternative o)) : Words (Arm · (.conditional c s o))
      (c.wording ++ .keyword .then :: s.wording ++ Stmt.wordingOfAlternative o) := by
  have test := words_test hc
  refine ⟨.arm (phrase_bool test.derives) hs.derives ho.derives, ?_⟩
  simp only [List.forall_mem_append, List.forall_mem_cons]
  exact ⟨⟨test.spelled, trivial, hs.spelled⟩, ho.spelled⟩

mutual

theorem words_statement {s : Stmt} (h : s.IsSingle) : Words (Statement · s) s.wording := by
  match h with
  | .assign hx he =>
    have amount := words_amount he
    exact ⟨.assign (phrase_expr amount.derives),
      List.forall_mem_cons.mpr ⟨hx, List.forall_mem_cons.mpr ⟨trivial, amount.spelled⟩⟩⟩
  | .while hc hs =>
    have test := words_test hc
    have body := words_block hs
    refine ⟨.while (phrase_bool test.derives) body.derives, ?_⟩
    simp only [Stmt.wording, List.forall_mem_append, List.forall_mem_cons]
    exact ⟨⟨⟨trivial, test.spelled⟩, trivial, body.spelled⟩, trivial, List.forall_mem_nil _⟩
  | .conditional hc hs ho =>
    have arm := words_arm hc (words_block hs) (words_elsePart ho)
    exact ⟨.if arm.derives, List.forall_mem_cons.mpr ⟨trivial, arm.spelled⟩⟩
  | .action => exact ⟨.action, List.forall_mem_singleton.mpr trivial⟩
  | .motion he =>
    have amount := words_amount he
    exact ⟨.motion (phrase_expr amount.derives), List.forall_mem_cons.mpr ⟨trivial, amount.spelled⟩⟩

theorem words_block {s : Stmt} (h : s.IsBody) : Words (Block · s) s.wording := by
  match h with
  | .block h =>
    have series := words_statements h
    exact ⟨.block series.derives, series.spelled⟩

theorem words_statements {ss : List Stmt} (h : Stmt.IsSeries ss) :
    Words (Statements · ss) (Stmt.wordingOfAll ss) := by
  match h with
  | .one h =>
    have statement := words_statement h
    rw [Stmt.wordingOfAll, Stmt.wordingOfAll, List.append_nil]
    exact ⟨.one statement.derives, statement.spelled⟩
  | .more h hs =>
    have statement := words_statement h
    have series := words_statements hs
    exact ⟨.more statement.derives series.derives,
      List.forall_mem_append.mpr ⟨statement.spelled, series.spelled⟩⟩

theorem words_elsePart {o : Option Stmt} (h : Stmt.IsAlternative o) :
    Words (ElsePart · o) (Stmt.wordingOfAlternative o) := by
  match h with
  | .none => exact ⟨.fi, List.forall_mem_singleton.mpr trivial⟩
  | .arm (.conditional hc hs ho) =>
    have arm := words_arm hc (words_block hs) (words_elsePart ho)
    exact ⟨.elsif arm.derives, List.forall_mem_cons.mpr ⟨trivial, arm.spelled⟩⟩
  | .body (.block h) =>
    have series := words_statements h
    refine ⟨.else (.block series.derives), ?_⟩
    exact List.forall_mem_append.mpr ⟨List.forall_mem_cons.mpr ⟨trivial, series.spelled⟩,
      List.forall_mem_singleton.mpr trivial⟩

end

theorem Lexeme.isName_iff {x : String} :
    IsName x ↔ x.toList ∈ Pattern.identifier.language ∧ ∀ k : Keyword, k.text ≠ x := by
  rw [Pattern.mem_identifier]
  constructor
  · intro h
    refine ⟨h.isWord, ?_⟩
    rintro k rfl
    cases (Keyword.ofText?_text k).symm.trans h.free
  · intro h
    obtain ⟨isWord, other⟩ := h
    refine ⟨isWord, ?_⟩
    cases hk : Keyword.ofText? x with
    | none => rfl
    | some k => exact absurd (Keyword.text_of_ofText? hk) (other k)

namespace Program

theorem words_program {p : Program} (h : p.IsWhole) : Words (Derives · p) p.wording := by
  cases h with
  | nothing => exact ⟨.none, List.forall_mem_nil _⟩
  | @body s h =>
    have block := words_block h
    rw [wording, Stmt.wordingOfAll, Stmt.wordingOfAll, List.append_nil]
    exact ⟨derives_block block.derives, block.spelled⟩

theorem ofSource_source {p : Program} (h : p.IsWhole) : ofSource p.source = .ok p := by
  have words := words_program h
  have answers := Spells.tokens words.spelled (content_of_blocks words.derives) [] (by simp [Bounded])
  rw [List.append_nil, answersOf_nil, List.append_nil] at answers
  refine (ofSource_eq_ok_iff ?_).mpr words.derives
  rw [source, String.toList_ofList, answers]

/-- The programs that sources stand for are those of the shape of a program: nothing or one body, a body
a series of at least one statement and no body among them, numbers and conditions apart. The names in
them are the words that are no keywords, and the numbers those that are some number and bear no sign.
Each of these programs has a source. -/
theorem ofSource_image (p : Program) : ((∃ source, ofSource source = .ok p) ↔ p.IsWhole) ∧
    (p.IsWhole → ofSource p.source = .ok p) ∧
    (∀ x, Lexeme.IsName x ↔ x.toList ∈ Pattern.identifier.language ∧ ∀ k : Keyword, k.text ≠ x) ∧
    ∀ v, Lexeme.IsLiteral v ↔ v.isNaN = false ∧ Number.isNegative v = false :=
  ⟨⟨fun ⟨_, h⟩ => isWhole_of_source h, fun h => ⟨_, ofSource_source h⟩⟩, ofSource_source,
    fun _ => Lexeme.isName_iff, fun _ => Number.isLiteral_iff⟩

/-- A loop as long as a sum is less than infinity. -/
theorem ofSource_image_sum : ofSource "WHILE ( + ( a + b ) < 1e39 ) DO HOME OD" =
    .ok ⟨[.block [.while (.binary .less (.binary .add (.variable "a") (.variable "b"))
      (.constant (Magnitude.infinity.toNumber false))) (.block [.action .home])]]⟩ := by
  have a : Lexeme.IsName "a" := ⟨⟨'a', [], rfl, rfl, List.forall_mem_nil _⟩, by decide⟩
  have b : Lexeme.IsName "b" := ⟨⟨'b', [], rfl, rfl, List.forall_mem_nil _⟩, by decide⟩
  have less : Operator.less.isRelational = true := rfl
  have add : Operator.add.isArithmetic = true := rfl
  have test : Expr.IsTest _ := .compared less (.binary add (.variable a) (.variable b))
    (.constant ⟨Magnitude.infinity, rfl⟩)
  have whole : IsWhole _ := .body (.block (.one (.while test (.block (.one (.action (a := .home)))))))
  have read := (ofSource_image _).2.1 whole
  rwa [show source _ = "WHILE ( + ( a + b ) < 1e39 ) DO HOME OD" by decide +kernel] at read

end Program

end Turtle
