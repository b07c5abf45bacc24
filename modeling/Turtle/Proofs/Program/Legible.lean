import Turtle.Proofs.Number.Negation
import Turtle.Proofs.Program.Image

/-!
# Texts tell programs apart

The text of a program shows the whole tree, also where it is not read back (`Program.text_eq_text_iff`).
The tokens of an expression are no beginning of those of another one: a name or a number is one token,
and each operation has parentheses of its own. Only a minus behind a parenthesis may be the sign of an
operation or that of a number, and that shows where the operand ends (`minus_ne_pieces`).
-/

namespace Turtle

/-! ## Tokens of expressions -/

theorem Number.neg_neg (v : Number) : - -v = v := by
  cases h : magnitude? v with
  | none =>
    rw [eq_nan h]
    rfl
  | some m => rw [← toNumber_magnitude h, Magnitude.neg_toNumber, Magnitude.neg_toNumber, Bool.not_not]

/-- A number with a sign is written by two tokens. -/
def Token.pieces : Token → List Token
  | .real v => if Number.isNegative v then [.symbol .minus, .real (-v)] else [.real v]
  | t => [t]

namespace Expr

def pieces (e : Expr) : List Token := e.tokens.flatMap Token.pieces

theorem pieces_negate (e : Expr) (r : List Token) :
    (negate e).pieces ++ r = .symbol .lparen :: .symbol .minus :: (e.pieces ++ .symbol .rparen :: r) := by
  simp [pieces, tokens, Token.pieces]

theorem pieces_not (e : Expr) (r : List Token) :
    (Expr.not e).pieces ++ r = .symbol .lparen :: .keyword .not :: (e.pieces ++ .symbol .rparen :: r) := by
  simp [pieces, tokens, Token.pieces]

theorem pieces_binary (op : Operator) (e e' : Expr) (r : List Token) : (binary op e e').pieces ++ r =
    .symbol .lparen :: (e.pieces ++ op.token :: (e'.pieces ++ .symbol .rparen :: r)) := by
  cases op <;> simp [pieces, tokens, Token.pieces, Operator.token]

theorem pieces_cases (e : Expr) : (∃ x, e.pieces = [.identifier x] ∧ e.reread = .variable x) ∨
    (∃ v, e.pieces = [.real v] ∧ e.reread = .constant v) ∨
    (∃ v, e.pieces = [.symbol .minus, .real v] ∧ e.reread = .constant (-v)) ∨
    (∃ w, e.pieces = .symbol .lparen :: w ∧ e.isBare = false) := by
  cases e with
  | «variable» x => exact .inl ⟨x, rfl, rfl⟩
  | constant v =>
    rw [pieces, tokens, reread]
    by_cases hi : v.isInfinite = true
    · rw [if_pos hi, if_pos hi]
      exact .inl ⟨_, rfl, rfl⟩
    · rw [if_neg hi, if_neg hi, List.flatMap_singleton, Token.pieces]
      by_cases hn : Number.isNegative v = true
      · rw [if_pos hn]
        exact .inr (.inr (.inl ⟨-v, rfl, by rw [Number.neg_neg]⟩))
      · rw [if_neg hn]
        exact .inr (.inl ⟨v, rfl, rfl⟩)
  | negate | not | binary => exact .inr (.inr (.inr ⟨_, rfl, rfl⟩))

section
variable {e e' : Expr} {r r' : List Token}

theorem reread_of_bare (hb : e.isBare = true) (h : e.pieces ++ r = e'.pieces ++ r') :
    e.reread = e'.reread ∧ r = r' := by
  -- the first token, or the second behind a minus, shows which of the forms it is
  rcases e.pieces_cases with ⟨x, he, read⟩ | ⟨v, he, read⟩ | ⟨v, he, read⟩ | ⟨w, he, compound⟩ <;>
    rcases e'.pieces_cases with ⟨x', he', read'⟩ | ⟨v', he', read'⟩ | ⟨v', he', read'⟩ | ⟨w', he', -⟩ <;>
    rw [he, he'] at h <;> simp_all

/-- No condition begins an expression without a parenthesis. -/
theorem not_ne_pieces : .keyword .not :: r ≠ e.pieces ++ r' := by
  rcases e.pieces_cases with ⟨_, he, -⟩ | ⟨_, he, -⟩ | ⟨_, he, -⟩ | ⟨_, he, -⟩ <;> rw [he] <;> exact nofun

theorem minus_ne_pieces {op : Operator} {s s' : List Token} :
    .symbol .minus :: (e.pieces ++ .symbol .rparen :: s) ≠ e'.pieces ++ op.token :: s' := by
  intro h
  -- a minus on the right is that of a number, so on the left too that number would end the operand
  have close : .symbol .rparen ≠ op.token := by cases op <;> exact nofun
  rcases e.pieces_cases with ⟨x, he, -⟩ | ⟨v, he, -⟩ | ⟨v, he, -⟩ | ⟨w, he, -⟩ <;>
    rcases e'.pieces_cases with ⟨x', he', -⟩ | ⟨v', he', -⟩ | ⟨v', he', -⟩ | ⟨w', he', -⟩ <;>
    rw [he, he'] at h <;> simp_all

end

/-- The tokens of an expression are no beginning of those of another one. -/
theorem reread_of_pieces {e e' : Expr} {r r' : List Token} (h : e.pieces ++ r = e'.pieces ++ r') :
    e.reread = e'.reread ∧ r = r' := by
  induction e generalizing e' r r' with
  | «variable» | constant => exact reread_of_bare rfl h
  | negate e ih =>
    cases e' with
    | «variable» | constant => exact (reread_of_bare rfl h.symm).imp Eq.symm Eq.symm
    | negate e' =>
      rw [pieces_negate, pieces_negate, List.cons_inj_right, List.cons_inj_right] at h
      obtain ⟨read, rest⟩ := ih h
      exact ⟨congrArg Expr.negate read, List.tail_eq_of_cons_eq rest⟩
    | not e' =>
      rw [pieces_negate, pieces_not] at h
      cases h
    | binary op a b =>
      rw [pieces_negate, pieces_binary, List.cons_inj_right] at h
      exact absurd h minus_ne_pieces
  | not e ih =>
    cases e' with
    | «variable» | constant => exact (reread_of_bare rfl h.symm).imp Eq.symm Eq.symm
    | negate e' =>
      rw [pieces_negate, pieces_not] at h
      cases h
    | not e' =>
      rw [pieces_not, pieces_not, List.cons_inj_right, List.cons_inj_right] at h
      obtain ⟨read, rest⟩ := ih h
      exact ⟨congrArg Expr.not read, List.tail_eq_of_cons_eq rest⟩
    | binary op a b =>
      rw [pieces_not, pieces_binary, List.cons_inj_right] at h
      exact absurd h not_ne_pieces
  | binary op a b iha ihb =>
    cases e' with
    | «variable» | constant => exact (reread_of_bare rfl h.symm).imp Eq.symm Eq.symm
    | negate e' =>
      rw [pieces_negate, pieces_binary, List.cons_inj_right] at h
      exact absurd h.symm minus_ne_pieces
    | not e' =>
      rw [pieces_not, pieces_binary, List.cons_inj_right] at h
      exact absurd h.symm not_ne_pieces
    | binary op' a' b' =>
      rw [pieces_binary, pieces_binary, List.cons_inj_right] at h
      obtain ⟨left, rest⟩ := iha h
      obtain ⟨sign, rest⟩ := List.cons.inj rest
      obtain ⟨right, rest⟩ := ihb rest
      rw [reread, reread, left, right, Operator.token_injective sign]
      exact ⟨rfl, List.tail_eq_of_cons_eq rest⟩

/-! ## Expressions by their texts -/

theorem tokens_reread (e : Expr) : e.reread.tokens = e.tokens := by
  induction e with
  | «variable» => rfl
  | constant v =>
    by_cases hi : v.isInfinite = true
    · rw [reread, if_pos hi, tokens, tokens, if_pos hi]
    · rw [reread, if_neg hi]
  | negate e ih | not e ih => rw [reread, tokens, tokens, ih]
  | binary op l r ihl ihr => rw [reread, tokens, tokens, ihl, ihr]

theorem reread_of_tokens {e e' : Expr} {r r' : List Token} (h : e.tokens ++ r = e'.tokens ++ r') :
    e.reread = e'.reread ∧ r = r' := by
  have split := congrArg (List.flatMap Token.pieces) h
  rw [List.flatMap_append, List.flatMap_append] at split
  have read := (reread_of_pieces split).1
  rw [← tokens_reread e, ← tokens_reread e', read] at h
  exact ⟨read, List.append_cancel_left h⟩

def IsLegible : Expr → Prop
  | .variable x => Lexeme.IsName x
  | .constant v => Float32.isFinite v = true
  | _ => True

theorem IsLegible.isFinite {e : Expr} (h : e.IsLegible) : e.IsFinite := by
  cases e with
  | constant v =>
    obtain ⟨m, negative, hm, rfl⟩ := Number.exists_magnitude h
    rw [IsFinite, Number.isInfinite, Number.magnitude?_toNumber]
    refine decide_eq_false ?_
    rintro ⟨⟩
    exact absurd hm (by decide)
  | _ => trivial

theorem spells_constant {v : Number} (h : Float32.isFinite v = true) :
    Spells v.chars (constant v).pieces := by
  have finite : v.isInfinite = false := IsLegible.isFinite (e := .constant v) h
  obtain ⟨m, negative, hm, rfl⟩ := Number.exists_magnitude h
  rw [pieces, tokens, finite, List.flatMap_singleton]
  simp only [Bool.false_eq_true, if_false, Token.pieces, Number.isNegative_toNumber]
  cases negative with
  | false => exact .finite hm
  | true =>
    rw [Number.chars_negative, if_pos rfl, Magnitude.neg_toNumber]
    exact (Spells.finite hm).minus

theorem spells_pieces {e : Expr} (h : ∀ d ∈ e.parts, d.IsLegible) : Spells e.chars e.pieces := by
  induction e with
  | «variable» x => exact .name (h _ List.mem_cons_self)
  | constant v => exact spells_constant (h _ List.mem_cons_self)
  | negate e ih =>
    have spells := (ih (List.forall_mem_cons.mp h).2).minus.parens
    rwa [← List.append_nil (pieces _), pieces_negate]
  | not e ih =>
    have spells := ((Spells.keyword .not).blank (ih (List.forall_mem_cons.mp h).2)).parens
    rw [← List.append_nil (pieces _), pieces_not]
    exact spells
  | binary op l r ihl ihr =>
    obtain ⟨hl, hr⟩ := List.forall_mem_append.mp (List.forall_mem_cons.mp h).2
    have spells := ((ihl hl).blank ((Spells.operator op).blank (ihr hr))).parens
    rw [← List.append_nil (pieces _), pieces_binary]
    simpa [chars] using spells

theorem eq_of_text {e e' : Expr} (h : ∀ d ∈ e.parts, d.IsLegible) (h' : ∀ d ∈ e'.parts, d.IsLegible)
    (text : e.text = e'.text) : e = e' := by
  have answers : ∀ {e : Expr}, (∀ d ∈ e.parts, d.IsLegible) → answersOf e.chars = e.pieces.map .ok := by
    intro e h
    have spells := spells_pieces h [] nofun
    rwa [List.append_nil, answersOf_nil, List.append_nil] at spells
  have chars : e.chars = e'.chars := String.ofList_injective text
  have pieces : e.pieces = e'.pieces :=
    List.map_injective_iff.mpr (fun _ _ => Except.ok.inj) (by rw [← answers h, ← answers h', chars])
  have read := (reread_of_pieces (congrArg (· ++ []) pieces)).1
  rwa [reread_of_isFinite fun d hd => (h d hd).isFinite,
    reread_of_isFinite fun d hd => (h' d hd).isFinite] at read

end Expr

/-! ## Statements by their tokens -/

theorem Action.keyword_injective {a a' : Action} (h : a.keyword = a'.keyword) : a = a' :=
  Option.some.inj ((ofKeyword?_eq_some.mpr rfl).symm.trans (ofKeyword?_eq_some.mpr h.symm))

theorem Motion.keyword_injective {m m' : Motion} (h : m.keyword = m'.keyword) : m = m' :=
  Option.some.inj ((ofKeyword?_eq_some.mpr rfl).symm.trans (ofKeyword?_eq_some.mpr h.symm))

theorem ne_of_series {ss : List Stmt} (h : Stmt.IsSeries ss) {r : List Token}
    (hr : ∀ t ∈ r.head?, t.startsStatement = false) (r' : List Token) : r ≠ Stmt.tokensOfAll ss ++ r' := by
  rintro rfl
  cases h with
  | one h | more h _ =>
    obtain ⟨t, v, hs, ht⟩ := starts_of_isSingle h
    rw [Stmt.tokensOfAll, hs] at hr
    exact Bool.false_ne_true ((hr t rfl).symm.trans ht)

theorem not_starts {t : Token} (h : t.startsStatement = false) (r : List Token) :
    ∀ u ∈ (t :: r).head?, u.startsStatement = false := by
  intro u hu
  rwa [← Option.some.inj hu]

theorem not_starts_alternative (o : Option Stmt) (r : List Token) :
    ∀ t ∈ (Stmt.tokensOfAlternative o ++ r).head?, t.startsStatement = false := by
  cases o <;> exact not_starts rfl _

theorem tokens_block (ss : List Stmt) : (Stmt.block ss).tokens = Stmt.tokensOfAll ss := by rw [Stmt.tokens]

theorem tokensOfAll_one (s : Stmt) : Stmt.tokensOfAll [s] = s.tokens := List.append_nil _

theorem tokens_of_some {s s' : Stmt} {r r' : List Token}
    (h : Stmt.tokensOfAlternative (some s) ++ r = Stmt.tokensOfAlternative (some s') ++ r') :
    s.tokens ++ .keyword .fi :: r = s'.tokens ++ .keyword .fi :: r' := by
  simpa [Stmt.tokensOfAlternative] using h

mutual

theorem reread_of_single {s s' : Stmt} (h : s.IsSingle) (h' : s'.IsSingle) {r r' : List Token}
    (tokens : s.tokens ++ r = s'.tokens ++ r') : s.reread = s'.reread ∧ r = r' := by
  -- the first token tells the form of both, and then part after part is taken off both lists
  match h with
  | .assign (x := x) _ _ =>
    cases h' with
    | assign =>
      obtain ⟨name, rest⟩ := List.cons.inj tokens
      obtain ⟨read, rest⟩ := Expr.reread_of_tokens (List.tail_eq_of_cons_eq rest)
      rw [Stmt.reread, Stmt.reread, Token.identifier.inj name, read]
      exact ⟨rfl, rest⟩
    | «while» | conditional | action | motion => cases tokens
  | .while hc hs =>
    cases h' with
    | «while» hc' hs' =>
      simp only [Stmt.tokens, List.cons_append, List.append_assoc, List.cons_inj_right,
        List.nil_append] at tokens
      obtain ⟨test, rest⟩ := Expr.reread_of_tokens tokens
      obtain ⟨body, rest⟩ := reread_of_body hs hs' (not_starts rfl _) (not_starts rfl _)
        (List.tail_eq_of_cons_eq rest)
      rw [Stmt.reread, Stmt.reread, test, body]
      exact ⟨rfl, List.tail_eq_of_cons_eq rest⟩
    | assign | conditional => cases tokens
    | @action a => cases a <;> cases tokens
    | @motion m => cases m <;> cases tokens
  | .conditional hc hs ho =>
    cases h' with
    | conditional hc' hs' ho' =>
      simp only [Stmt.tokens, List.cons_append, List.append_assoc, List.cons_inj_right] at tokens
      obtain ⟨test, rest⟩ := Expr.reread_of_tokens tokens
      obtain ⟨body, rest⟩ := reread_of_body hs hs' (not_starts_alternative _ _) (not_starts_alternative _ _)
        (List.tail_eq_of_cons_eq rest)
      obtain ⟨other, rest⟩ := reread_of_alternative ho ho' rest
      rw [Stmt.reread, Stmt.reread, test, body, other]
      exact ⟨rfl, rest⟩
    | assign | «while» => cases tokens
    | @action a => cases a <;> cases tokens
    | @motion m => cases m <;> cases tokens
  | .action (a := a) =>
    cases h' with
    | @action a' =>
      obtain ⟨word, rest⟩ := List.cons.inj tokens
      rw [Action.keyword_injective (Token.keyword.inj word)]
      exact ⟨rfl, rest⟩
    | assign | «while» | conditional => cases a <;> cases tokens
    | @motion m => cases a <;> cases m <;> cases tokens
  | .motion (m := m) _ =>
    cases h' with
    | @motion m' =>
      obtain ⟨word, rest⟩ := List.cons.inj tokens
      obtain ⟨read, rest⟩ := Expr.reread_of_tokens rest
      rw [Stmt.reread, Stmt.reread, Motion.keyword_injective (Token.keyword.inj word), read]
      exact ⟨rfl, rest⟩
    | assign | «while» | conditional => cases m <;> cases tokens
    | @action a => cases a <;> cases m <;> cases tokens
termination_by structural h

theorem reread_of_body {s s' : Stmt} (h : s.IsBody) (h' : s'.IsBody) {r r' : List Token}
    (hr : ∀ t ∈ r.head?, t.startsStatement = false) (hr' : ∀ t ∈ r'.head?, t.startsStatement = false)
    (tokens : s.tokens ++ r = s'.tokens ++ r') : s.reread = s'.reread ∧ r = r' := by
  match h with
  | .block h =>
    cases h' with
    | block h' =>
      obtain ⟨read, rest⟩ := reread_of_series h h' hr hr' tokens
      exact ⟨congrArg Stmt.block read, rest⟩
termination_by structural h

/-- Behind a series stands what begins no statement. -/
theorem reread_of_series {ss ss' : List Stmt} (h : Stmt.IsSeries ss) (h' : Stmt.IsSeries ss')
    {r r' : List Token} (hr : ∀ t ∈ r.head?, t.startsStatement = false)
    (hr' : ∀ t ∈ r'.head?, t.startsStatement = false)
    (tokens : Stmt.tokensOfAll ss ++ r = Stmt.tokensOfAll ss' ++ r') :
    Stmt.rereadAll ss = Stmt.rereadAll ss' ∧ r = r' := by
  match h with
  | .one h =>
    rw [tokensOfAll_one] at tokens
    cases h' with
    | one h' =>
      rw [tokensOfAll_one] at tokens
      obtain ⟨read, rest⟩ := reread_of_single h h' tokens
      exact ⟨congrArg (fun s => [s]) read, rest⟩
    | more h' hs' =>
      rw [Stmt.tokensOfAll, List.append_assoc] at tokens
      exact absurd (reread_of_single h h' tokens).2 (ne_of_series hs' hr r')
  | .more h hs =>
    rw [Stmt.tokensOfAll, List.append_assoc] at tokens
    cases h' with
    | one h' =>
      rw [tokensOfAll_one] at tokens
      exact absurd (reread_of_single h h' tokens).2.symm (ne_of_series hs hr' r)
    | more h' hs' =>
      rw [Stmt.tokensOfAll, List.append_assoc] at tokens
      obtain ⟨read, rest⟩ := reread_of_single h h' tokens
      obtain ⟨readAll, rest⟩ := reread_of_series hs hs' hr hr' rest
      rw [Stmt.rereadAll, Stmt.rereadAll, read, readAll]
      exact ⟨rfl, rest⟩
termination_by structural h

theorem reread_of_alternative {o o' : Option Stmt} (h : Stmt.IsAlternative o) (h' : Stmt.IsAlternative o')
    {r r' : List Token} (tokens : Stmt.tokensOfAlternative o ++ r = Stmt.tokensOfAlternative o' ++ r') :
    Stmt.rereadAlternative o = Stmt.rereadAlternative o' ∧ r = r' := by
  match h with
  | .none =>
    cases h' with
    | none => exact ⟨rfl, List.tail_eq_of_cons_eq tokens⟩
    | arm | body => cases tokens
  | .arm h =>
    cases h' with
    | none => cases tokens
    | arm h' =>
      obtain ⟨read, rest⟩ := reread_of_single h h' (tokens_of_some tokens)
      exact ⟨congrArg (fun s : Stmt => some s.asBody) read, List.tail_eq_of_cons_eq rest⟩
    | body h' =>
      have tokens := tokens_of_some tokens
      cases h' with
      | block h' =>
        rw [tokens_block] at tokens
        cases h' with
        | one h' =>
          rw [tokensOfAll_one] at tokens
          obtain ⟨read, rest⟩ := reread_of_single h h' tokens
          exact ⟨congrArg (fun s => some (Stmt.block [s])) read, List.tail_eq_of_cons_eq rest⟩
        | more h' hs' =>
          -- the body would go on with a statement where the arm is closed
          rw [Stmt.tokensOfAll, List.append_assoc] at tokens
          exact absurd (reread_of_single h h' tokens).2 (ne_of_series hs' (not_starts rfl r) _)
  | .body h =>
    cases h' with
    | none => cases tokens
    | arm h' =>
      have tokens := tokens_of_some tokens
      match h with
      | .block (.one h) =>
        rw [tokens_block, tokensOfAll_one] at tokens
        obtain ⟨read, rest⟩ := reread_of_single h h' tokens
        exact ⟨congrArg (fun s => some (Stmt.block [s])) read, List.tail_eq_of_cons_eq rest⟩
      | .block (.more h hs) =>
        rw [tokens_block, Stmt.tokensOfAll, List.append_assoc] at tokens
        exact absurd (reread_of_single h h' tokens).2.symm (ne_of_series hs (not_starts rfl r') _)
    | body h' =>
      obtain ⟨read, rest⟩ := reread_of_body h h' (not_starts rfl r) (not_starts rfl r')
        (tokens_of_some tokens)
      rw [Stmt.rereadAlternative, Stmt.rereadAlternative, read]
      exact ⟨rfl, List.tail_eq_of_cons_eq rest⟩
termination_by structural h

end

theorem Program.reread_of_tokens {p q : Program} (hp : p.IsWhole) (hq : q.IsWhole) (h : p.tokens = q.tokens) :
    p.reread = q.reread := by
  have last : ∀ t ∈ ([] : List Token).head?, t.startsStatement = false := by simp
  have some {s : Stmt} (hs : s.IsBody) : [] ≠ s.tokens ++ [] := by
    cases hs with
    | block hs => exact ne_of_series hs last []
  cases hp with
  | nothing =>
    cases hq with
    | nothing => rfl
    | body hq => exact absurd h (some hq)
  | body hp =>
    cases hq with
    | nothing => exact absurd h.symm (some hp)
    | body hq => exact congrArg (fun s => Program.mk [s]) (reread_of_body hp hq last last h).1

/-! ## Programs by their texts -/

namespace Stmt

mutual

/-- The statement in which each arm that another condition opens is a body of its own. -/
def withoutArms : Stmt → Stmt
  | .assign x e => .assign x e
  | .block body => .block (withoutArmsAll body)
  | .while c body => .while c body.withoutArms
  | .conditional c body other => .conditional c body.withoutArms (withoutArmsAlternative other)
  | .action a => .action a
  | .motion m e => .motion m e

def withoutArmsAll : List Stmt → List Stmt
  | [] => []
  | s :: ss => s.withoutArms :: withoutArmsAll ss

def withoutArmsAlternative : Option Stmt → Option Stmt
  | none => none
  | some s => some s.withoutArms.asBody

end

theorem lines_asBody (s : Stmt) (depth : Nat) : s.asBody.lines depth = s.lines depth := by
  cases s with
  | conditional => exact List.append_nil _
  | _ => rfl

mutual

theorem lines_withoutArms (s : Stmt) (depth : Nat) : s.withoutArms.lines depth = s.lines depth := by
  match s with
  | .assign _ _ | .action _ | .motion _ _ => rfl
  | .block body => exact linesOfAll_withoutArms body depth
  | .while c body => rw [withoutArms, lines, lines, lines_withoutArms body]
  | .conditional c body other =>
    rw [withoutArms, lines, lines, lines_withoutArms body, linesOfAlternative_withoutArms other]

theorem linesOfAll_withoutArms (ss : List Stmt) (depth : Nat) :
    linesOfAll depth (withoutArmsAll ss) = linesOfAll depth ss := by
  match ss with
  | [] => rfl
  | s :: ss => rw [withoutArmsAll, linesOfAll, linesOfAll, lines_withoutArms s, linesOfAll_withoutArms ss]

theorem linesOfAlternative_withoutArms (o : Option Stmt) (depth : Nat) :
    linesOfAlternative depth (withoutArmsAlternative o) = linesOfAlternative depth o := by
  match o with
  | none => rfl
  | some s => rw [withoutArmsAlternative, linesOfAlternative, linesOfAlternative, lines_asBody,
      lines_withoutArms s]

end

mutual

theorem reread_of_isFinite (s : Stmt) (h : ∀ d ∈ s.parts, d.IsFinite) : s.reread = s.withoutArms := by
  match s with
  | .assign _ _ | .motion _ _ => rw [reread, withoutArms, Expr.reread_of_isFinite h]
  | .action _ => rfl
  | .block body => rw [reread, withoutArms, rereadAll_of_isFinite body h]
  | .while c body =>
    obtain ⟨hc, hs⟩ := List.forall_mem_append.mp h
    rw [reread, withoutArms, Expr.reread_of_isFinite hc, reread_of_isFinite body hs]
  | .conditional c body other =>
    obtain ⟨hc, h⟩ := List.forall_mem_append.mp h
    obtain ⟨hs, ho⟩ := List.forall_mem_append.mp h
    rw [reread, withoutArms, Expr.reread_of_isFinite hc, reread_of_isFinite body hs,
      rereadAlternative_of_isFinite other ho]

theorem rereadAll_of_isFinite (ss : List Stmt) (h : ∀ d ∈ partsOfAll ss, d.IsFinite) :
    rereadAll ss = withoutArmsAll ss := by
  match ss with
  | [] => rfl
  | s :: ss =>
    obtain ⟨hs, hss⟩ := List.forall_mem_append.mp h
    rw [rereadAll, withoutArmsAll, reread_of_isFinite s hs, rereadAll_of_isFinite ss hss]

theorem rereadAlternative_of_isFinite (o : Option Stmt) (h : ∀ d ∈ partsOfAlternative o, d.IsFinite) :
    rereadAlternative o = withoutArmsAlternative o := by
  match o with
  | none => rfl
  | some s => rw [rereadAlternative, withoutArmsAlternative, reread_of_isFinite s h]

end

end Stmt

namespace Program

def withoutArms (p : Program) : Program := ⟨Stmt.withoutArmsAll p.statements⟩

theorem text_withoutArms (p : Program) : p.withoutArms.text = p.text := by
  rw [text, text, chars, chars, withoutArms, Stmt.linesOfAll_withoutArms]

/-- The texts of two programs are equal if and only if the programs are, up to arms that are written as
bodies. The numbers in the programs are finite; whether the texts are read back does not matter. And no
two expressions have the same text if their names are names of the language and their numbers are
finite, whatever their signs and however numbers and conditions are mixed. -/
theorem text_eq_text_iff :
    (∀ {source source' : String} {p q : Program}, ofSource source = .ok p → ofSource source' = .ok q →
      (∀ d ∈ p.parts, d.IsFinite) → (∀ d ∈ q.parts, d.IsFinite) →
      (p.text = q.text ↔ p.withoutArms = q.withoutArms)) ∧
    ∀ {e e' : Expr}, (∀ d ∈ e.parts, d.IsLegible) → (∀ d ∈ e'.parts, d.IsLegible) →
    e.text = e'.text → e = e' := by
  refine ⟨fun {source source' p q} hp hq finite finite' => ⟨fun text => ?_, fun same => ?_⟩, Expr.eq_of_text⟩
  · have whole := isWhole_of_source hp
    have whole' := isWhole_of_source hq
    have tokens : p.tokens = q.tokens :=
      List.map_injective_iff.mpr (fun _ _ => Except.ok.inj)
        (by rw [← answersOf_text whole, ← answersOf_text whole', text])
    have read := reread_of_tokens whole whole' tokens
    rwa [reread, reread, Stmt.rereadAll_of_isFinite _ finite, Stmt.rereadAll_of_isFinite _ finite'] at read
  · rw [← text_withoutArms p, ← text_withoutArms q, same]

/-- An arm and the conditional in a body that it is read back as; a negated number and a negative one. -/
theorem text_eq_text_iff_elsif :
    (∃ p q, ofSource "IF ( + a < b ) THEN HOME ELSIF ( + b < a ) THEN PENUP FI" = .ok p ∧
      ofSource "IF ( + a < b ) THEN HOME ELSE IF ( + b < a ) THEN PENUP FI FI" = .ok q ∧ p.text = q.text) ∧
    (Expr.negate (.constant .one)).text ≠ (Expr.constant (-.one)).text := by
  have a : Lexeme.IsName "a" := ⟨⟨'a', [], rfl, rfl, List.forall_mem_nil _⟩, by decide⟩
  have b : Lexeme.IsName "b" := ⟨⟨'b', [], rfl, rfl, List.forall_mem_nil _⟩, by decide⟩
  have less : Operator.less.isRelational = true := rfl
  have home : Stmt.IsBody _ := .block (.one (.action (a := .home)))
  have penUp : Stmt.IsBody _ := .block (.one (.action (a := .penUp)))
  have other : Stmt.IsSingle _ := .conditional (.compared less (.variable b) (.variable a)) penUp .none
  have test : Expr.IsTest _ := .compared less (.variable a) (.variable b)
  have arm : IsWhole _ := .body (.block (.one (.conditional test home (.arm other))))
  have body : IsWhole _ := .body (.block (.one (.conditional test home (.body (.block (.one other))))))
  have read := ofSource_source arm
  have read' := ofSource_source body
  rw [show source _ = "IF ( + a < b ) THEN HOME ELSIF ( + b < a ) THEN PENUP FI" by decide +kernel] at read
  rw [show source _ = "IF ( + a < b ) THEN HOME ELSE IF ( + b < a ) THEN PENUP FI FI"
    by decide +kernel] at read'
  refine ⟨⟨_, _, read, read', (text_eq_text_iff.1 read read' ?_ ?_).mpr rfl⟩, fun text => ?_⟩
  · simp [parts, Stmt.partsOfAll, Stmt.parts, Stmt.partsOfAlternative, Expr.parts, Expr.IsFinite]
  · simp [parts, Stmt.partsOfAll, Stmt.parts, Stmt.partsOfAlternative, Expr.parts, Expr.IsFinite]
  · have finite : Float32.isFinite Number.one = true := by decide +kernel
    have finite' : Float32.isFinite (-Number.one) = true := by decide +kernel
    have legible : ∀ d ∈ (Expr.negate (.constant .one)).parts, d.IsLegible :=
      List.forall_mem_cons.mpr ⟨trivial, List.forall_mem_singleton.mpr finite⟩
    have legible' : ∀ d ∈ (Expr.constant (-.one)).parts, d.IsLegible := List.forall_mem_singleton.mpr finite'
    cases text_eq_text_iff.2 legible legible' text

end Program

end Turtle
