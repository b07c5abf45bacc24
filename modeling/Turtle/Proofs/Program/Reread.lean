import Turtle.Execution
import Turtle.Proofs.Program.Shape

/-!
# What the text of a program says

The tokens in the text of a program, and the program that they derive. That is not quite the program
itself: an arm that another condition opens is written as a body of its own, and a number that is
infinite is written as a name. The tokens derive it if all comparisons begin with a name or a number
(`derives_tokens`), and a run does not tell the two apart if all numbers are finite
(`Program.exec_reread`).
-/

namespace Turtle

open Grammar

def Number.isInfinite (v : Number) : Bool := magnitude? v = some .infinity

namespace Expr

def parts : Expr → List Expr
  | .variable x => [.variable x]
  | .constant v => [.constant v]
  | .negate e => .negate e :: e.parts
  | .not e => .not e :: e.parts
  | .binary op l r => .binary op l r :: (l.parts ++ r.parts)

def isBare : Expr → Bool
  | .variable _ | .constant _ => true
  | _ => false

def reread : Expr → Expr
  | .variable x => .variable x
  | .constant v => if v.isInfinite then .variable "inf" else .constant v
  | .negate e => .negate e.reread
  | .not e => .not e.reread
  | .binary op l r => .binary op l.reread r.reread

def tokens : Expr → List Token
  | .variable x => [.identifier x]
  | .constant v => [if v.isInfinite then .identifier "inf" else .real v]
  | .negate e => .symbol .lparen :: (.symbol .minus :: e.tokens) ++ [.symbol .rparen]
  | .not e => .symbol .lparen :: (.keyword .not :: e.tokens) ++ [.symbol .rparen]
  | .binary op l r => .symbol .lparen :: (l.tokens ++ op.token :: r.tokens) ++ [.symbol .rparen]

/-- If this is a comparison then its left side is a name or a number. -/
def LeadsBare : Expr → Prop
  | .binary op l _ => op.isRelational = true → l.isBare = true
  | _ => True

def IsFinite : Expr → Prop
  | .constant v => v.isInfinite = false
  | _ => True

end Expr

namespace Stmt

def asBody : Stmt → Stmt
  | .conditional c body other => .block [.conditional c body other]
  | s => s

mutual

def parts : Stmt → List Expr
  | .assign _ e => e.parts
  | .block body => partsOfAll body
  | .while c body => c.parts ++ body.parts
  | .conditional c body other => c.parts ++ (body.parts ++ partsOfAlternative other)
  | .action _ => []
  | .motion _ e => e.parts

def partsOfAll : List Stmt → List Expr
  | [] => []
  | s :: ss => s.parts ++ partsOfAll ss

def partsOfAlternative : Option Stmt → List Expr
  | none => []
  | some s => s.parts

end

mutual

def reread : Stmt → Stmt
  | .assign x e => .assign x e.reread
  | .block body => .block (rereadAll body)
  | .while c body => .while c.reread body.reread
  | .conditional c body other => .conditional c.reread body.reread (rereadAlternative other)
  | .action a => .action a
  | .motion m e => .motion m e.reread

def rereadAll : List Stmt → List Stmt
  | [] => []
  | s :: ss => s.reread :: rereadAll ss

def rereadAlternative : Option Stmt → Option Stmt
  | none => none
  | some s => some s.reread.asBody

end

mutual

def tokens : Stmt → List Token
  | .assign x e => .identifier x :: .symbol .assign :: e.tokens
  | .block body => tokensOfAll body
  | .while c body => .keyword .while :: c.tokens ++ .keyword .do :: body.tokens ++ [.keyword .od]
  | .conditional c body other =>
    .keyword .if :: (c.tokens ++ .keyword .then :: body.tokens ++ tokensOfAlternative other)
  | .action a => [.keyword a.keyword]
  | .motion m e => .keyword m.keyword :: e.tokens

def tokensOfAll : List Stmt → List Token
  | [] => []
  | s :: ss => s.tokens ++ tokensOfAll ss

def tokensOfAlternative : Option Stmt → List Token
  | none => [.keyword .fi]
  | some s => .keyword .else :: s.tokens ++ [.keyword .fi]

end

end Stmt

namespace Program

def parts (p : Program) : List Expr := Stmt.partsOfAll p.statements

def reread (p : Program) : Program := ⟨Stmt.rereadAll p.statements⟩

def tokens (p : Program) : List Token := Stmt.tokensOfAll p.statements

end Program

/-! ## Parts of expressions -/

theorem Operator.isRelational_of_isArithmetic {op : Operator} (h : op.isArithmetic = true) :
    op.isRelational = false := by
  revert h
  cases op <;> decide

namespace Expr

theorem tokens_of_isBare {e : Expr} (h : e.isBare = true) : ∃ t, e.tokens = [t] ∧ t ≠ .symbol .lparen := by
  cases e with
  | «variable» x => exact ⟨_, rfl, Token.noConfusion⟩
  | constant v => exact ⟨_, rfl, by split <;> exact Token.noConfusion⟩
  | _ => cases h

/-- There is no comparison inside a number. -/
theorem IsAmount.leadsBare {e : Expr} (h : e.IsAmount) : ∀ d ∈ e.parts, d.LeadsBare := by
  induction h with
  | «variable» | constant => exact List.forall_mem_singleton.mpr trivial
  | negate _ ih => exact List.forall_mem_cons.mpr ⟨trivial, ih⟩
  | @binary op l r ho _ _ ihl ihr =>
    refine List.forall_mem_cons.mpr ⟨?_, List.forall_mem_append.mpr ⟨ihl, ihr⟩⟩
    intro hr
    rw [Operator.isRelational_of_isArithmetic ho] at hr
    cases hr

end Expr

/-! ## The tokens derive what is read back -/

theorem sum_of_phrases {op : Operator} {w v : List Token} {l r : Expr} (ho : op.isArithmetic = true)
    (hl : Phrase .factor w l) (hr : Phrase .factor v r) :
    Phrase .expr (w ++ op.token :: v) (.binary op l r) := by
  have term : ∀ {w e}, Phrase .factor w e → Phrase .term w e := fun h => .operand rfl h
  cases op with
  | add | sub => exact .joined rfl (by simp) (.operand rfl (term hl)) (term hr)
  | mul | div => exact .operand rfl (.joined rfl (by simp) (term hl) hr)
  | _ => cases ho

theorem joined_of_phrases {op : Operator} {w v : List Token} {l r : Expr} (ho : op ∈ [.and, .or])
    (hl : Phrase .boolFactor w l) (hr : Phrase .boolFactor v r) :
    Phrase .bool (w ++ op.token :: v) (.binary op l r) := by
  have term : ∀ {w e}, Phrase .boolFactor w e → Phrase .boolTerm w e := fun h => .operand rfl h
  cases op with
  | and => exact .operand rfl (.joined rfl (by simp) (term hl) hr)
  | or => exact .joined rfl (by simp) (.operand rfl (term hl)) (term hr)
  | _ => simp at ho

/-- Each expression is in parentheses of its own, so that it can stand in the tightest place. -/
theorem phrase_of_isAmount {e : Expr} (h : e.IsAmount) : Phrase .factor e.tokens e.reread := by
  induction h with
  | «variable» => exact .name
  | @constant v _ =>
    rw [Expr.tokens, Expr.reread]
    by_cases hi : v.isInfinite = true
    · rw [if_pos hi, if_pos hi]
      exact .name
    · rw [if_neg hi, if_neg hi]
      exact .number
  | negate _ ih => exact .parens (.operand rfl (.operand rfl (.minus ih)))
  | binary ho _ _ ihl ihr => exact .parens (sum_of_phrases ho ihl ihr)

theorem expression_of_isAmount {e : Expr} (h : e.IsAmount) : Phrase .expr e.tokens e.reread :=
  .operand rfl (.operand rfl (phrase_of_isAmount h))

theorem phrase_of_isTest {e : Expr} (h : e.IsTest) (hb : ∀ d ∈ e.parts, d.LeadsBare) :
    Phrase .boolFactor e.tokens e.reread := by
  have term : ∀ {w e}, Phrase .boolFactor w e → Phrase .boolTerm w e := fun h => .operand rfl h
  induction h with
  | not _ ih => exact .condition (.operand rfl (term (.not (ih (List.forall_mem_cons.mp hb).2))))
  | @joined op l r ho _ _ ihl ihr =>
    obtain ⟨hbl, hbr⟩ := List.forall_mem_append.mp (List.forall_mem_cons.mp hb).2
    exact .condition (joined_of_phrases ho (ihl hbl) (ihr hbr))
  | @compared op l r ho hl hr =>
    obtain ⟨t, ht, hp⟩ := Expr.tokens_of_isBare ((List.forall_mem_cons.mp hb).1 ho)
    refine .condition (.operand rfl (term (.comparison ?_ (.compared ho (expression_of_isAmount hl)
      (expression_of_isAmount hr)))))
    rw [ht]
    exact fun he => hp (Option.some.inj he)

theorem condition_of_isTest {e : Expr} (h : e.IsTest) (hb : ∀ d ∈ e.parts, d.LeadsBare) :
    Phrase .bool e.tokens e.reread :=
  .operand rfl (.operand rfl (phrase_of_isTest h hb))

mutual

theorem statement_of_isSingle {s : Stmt} (h : s.IsSingle) (hb : ∀ d ∈ s.parts, d.LeadsBare) :
    Statement s.tokens s.reread := by
  match h with
  | .assign _ he => exact .assign (expression_of_isAmount he)
  | .while hc hs =>
    obtain ⟨hbc, hbs⟩ := List.forall_mem_append.mp hb
    exact .while (condition_of_isTest hc hbc) (block_of_isBody hs hbs)
  | .conditional hc hs ho =>
    obtain ⟨hbc, hb⟩ := List.forall_mem_append.mp hb
    obtain ⟨hbs, hbo⟩ := List.forall_mem_append.mp hb
    exact .if (.arm (condition_of_isTest hc hbc) (block_of_isBody hs hbs) (elsePart_of_isAlternative ho hbo))
  | .action => exact .action
  | .motion he => exact .motion (expression_of_isAmount he)

theorem block_of_isBody {s : Stmt} (h : s.IsBody) (hb : ∀ d ∈ s.parts, d.LeadsBare) :
    Block s.tokens s.reread := by
  match h with
  | .block h => exact .block (statements_of_isSeries h hb)

theorem statements_of_isSeries {ss : List Stmt} (h : Stmt.IsSeries ss)
    (hb : ∀ d ∈ Stmt.partsOfAll ss, d.LeadsBare) :
    Statements (Stmt.tokensOfAll ss) (Stmt.rereadAll ss) := by
  match h with
  | .one h =>
    rw [Stmt.tokensOfAll, Stmt.tokensOfAll, List.append_nil]
    exact .one (statement_of_isSingle h (List.forall_mem_append.mp hb).1)
  | .more h hs =>
    obtain ⟨hb, hbs⟩ := List.forall_mem_append.mp hb
    exact .more (statement_of_isSingle h hb) (statements_of_isSeries hs hbs)

theorem elsePart_of_isAlternative {o : Option Stmt} (h : Stmt.IsAlternative o)
    (hb : ∀ d ∈ Stmt.partsOfAlternative o, d.LeadsBare) :
    ElsePart (Stmt.tokensOfAlternative o) (Stmt.rereadAlternative o) := by
  match h with
  | .none => exact .fi
  | .arm h => exact .else (.block (.one (statement_of_isSingle h hb)))
  | .body (.block h) => exact .else (.block (statements_of_isSeries h hb))

end

theorem derives_tokens {p : Program} (h : p.IsWhole) (hb : ∀ d ∈ p.parts, d.LeadsBare) :
    Derives p.tokens p.reread := by
  cases h with
  | nothing => exact .none
  | @body s h =>
    rw [Program.tokens, Stmt.tokensOfAll, Stmt.tokensOfAll, List.append_nil]
    exact derives_block (block_of_isBody h (List.forall_mem_append.mp hb).1)

/-! ## Runs of what is read back -/

theorem Expr.reread_of_isFinite {e : Expr} (h : ∀ d ∈ e.parts, d.IsFinite) : e.reread = e := by
  induction e with
  | «variable» => rfl
  | constant v =>
    have finite : v.isInfinite = false := h (.constant v) List.mem_cons_self
    rw [reread, finite]
    rfl
  | negate e ih | not e ih => rw [reread, ih (List.forall_mem_cons.mp h).2]
  | binary op l r ihl ihr =>
    obtain ⟨hl, hr⟩ := List.forall_mem_append.mp (List.forall_mem_cons.mp h).2
    rw [reread, ihl hl, ihr hr]

section
variable {σ : Type} [Sink σ] {limit : Nat}

theorem exec_asBody (s : Stmt) (m : Machine σ) : s.asBody.exec limit m = s.exec limit m := by
  cases s with
  | conditional c body other =>
    rw [Stmt.asBody, Stmt.exec, Stmt.execAll]
    rcases (Stmt.conditional c body other).exec limit m with _ | ⟨m', _ | f⟩ <;> rfl
  | _ => rfl

mutual

theorem exec_reread (s : Stmt) (h : ∀ d ∈ s.parts, d.IsFinite) (m : Machine σ) :
    s.reread.exec limit m = s.exec limit m := by
  match s with
  | .assign x e | .motion k e => rw [Stmt.reread, Expr.reread_of_isFinite h]
  | .block ss => exact execAll_reread ss h m
  | .while c s =>
    obtain ⟨hc, hs⟩ := List.forall_mem_append.mp h
    rw [Stmt.reread, Stmt.exec, Stmt.exec, Expr.reread_of_isFinite hc, funext (exec_reread s hs)]
  | .conditional c s o =>
    obtain ⟨hc, h⟩ := List.forall_mem_append.mp h
    obtain ⟨hs, ho⟩ := List.forall_mem_append.mp h
    rw [Stmt.reread, Stmt.exec, Stmt.exec, Expr.reread_of_isFinite hc, exec_reread s hs m,
      execAlternative_reread o ho m]
  | .action _ => rfl

theorem execAll_reread (ss : List Stmt) (h : ∀ d ∈ Stmt.partsOfAll ss, d.IsFinite) (m : Machine σ) :
    Stmt.execAll limit (Stmt.rereadAll ss) m = Stmt.execAll limit ss m := by
  match ss with
  | [] => rfl
  | s :: ss =>
    obtain ⟨hs, hss⟩ := List.forall_mem_append.mp h
    rw [Stmt.rereadAll, Stmt.execAll, Stmt.execAll, exec_reread s hs m, funext (execAll_reread ss hss)]

theorem execAlternative_reread (o : Option Stmt) (h : ∀ d ∈ Stmt.partsOfAlternative o, d.IsFinite)
    (m : Machine σ) :
    Stmt.execAlternative limit (Stmt.rereadAlternative o) m = Stmt.execAlternative limit o m := by
  match o with
  | none => rfl
  | some s =>
    rw [Stmt.rereadAlternative, Stmt.execAlternative, exec_asBody]
    exact exec_reread s h m

end

theorem Program.exec_reread {p : Program} (h : ∀ d ∈ p.parts, d.IsFinite) (m : Machine σ) :
    p.reread.exec limit m = p.exec limit m :=
  execAll_reread p.statements h m

end

end Turtle
