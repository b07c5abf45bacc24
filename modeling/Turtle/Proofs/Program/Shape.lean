import Turtle.Proofs.Grammar.Acceptance
import Turtle.Proofs.Lexing.Spelled

/-!
# The trees of a source

Not every tree is the tree of a text. In those that are, numbers and conditions do not mix, names and
numbers are such as a text can spell, and a block is either the whole program or the body of a
statement.
-/

namespace Turtle

open Grammar

namespace Expr

inductive IsAmount : Expr → Prop
  | variable {x : String} (hx : Lexeme.IsName x) : IsAmount (.variable x)
  | constant {v : Number} (hv : Lexeme.IsLiteral v) : IsAmount (.constant v)
  | negate {e : Expr} (h : IsAmount e) : IsAmount (.negate e)
  | binary {op : Operator} {l r : Expr} (ho : op.isArithmetic = true) (hl : IsAmount l) (hr : IsAmount r) :
    IsAmount (.binary op l r)

inductive IsTest : Expr → Prop
  | not {e : Expr} (h : IsTest e) : IsTest (.not e)
  | joined {op : Operator} {l r : Expr} (ho : op ∈ [.and, .or]) (hl : IsTest l) (hr : IsTest r) :
    IsTest (.binary op l r)
  | compared {op : Operator} {l r : Expr} (ho : op.isRelational = true) (hl : IsAmount l) (hr : IsAmount r) :
    IsTest (.binary op l r)

end Expr

namespace Stmt

mutual

/-- A statement in a series, which is no block by itself. -/
inductive IsSingle : Stmt → Prop
  | assign {x : String} {e : Expr} (hx : Lexeme.IsName x) (he : e.IsAmount) : IsSingle (.assign x e)
  | while {c : Expr} {s : Stmt} (hc : c.IsTest) (hs : IsBody s) : IsSingle (.while c s)
  | conditional {c : Expr} {s : Stmt} {o : Option Stmt} (hc : c.IsTest) (hs : IsBody s)
      (ho : IsAlternative o) :
    IsSingle (.conditional c s o)
  | action {a : Action} : IsSingle (.action a)
  | motion {m : Motion} {e : Expr} (he : e.IsAmount) : IsSingle (.motion m e)

inductive IsBody : Stmt → Prop
  | block {ss : List Stmt} (h : IsSeries ss) : IsBody (.block ss)

inductive IsSeries : List Stmt → Prop
  | one {s : Stmt} (h : IsSingle s) : IsSeries [s]
  | more {s : Stmt} {ss : List Stmt} (h : IsSingle s) (hs : IsSeries ss) : IsSeries (s :: ss)

inductive IsAlternative : Option Stmt → Prop
  | none : IsAlternative none
  | arm {c : Expr} {s : Stmt} {o : Option Stmt} (h : IsSingle (.conditional c s o)) :
    IsAlternative (some (.conditional c s o))
  | body {s : Stmt} (h : IsBody s) : IsAlternative (some s)

end

end Stmt

inductive Program.IsWhole : Program → Prop
  | nothing : IsWhole ⟨[]⟩
  | body {s : Stmt} (h : s.IsBody) : IsWhole ⟨[s]⟩

/-! ## From derivations to shapes -/

def Grammar.Rank.Fits : Rank → Expr → Prop
  | .expr | .term | .factor => Expr.IsAmount
  | .bool | .boolTerm | .boolFactor | .comparison => Expr.IsTest

theorem fits_of_phrase {k : Rank} {w : List Token} {e : Expr} (h : Phrase k w e) (hw : ∀ t ∈ w, t.IsSpelled) :
    k.Fits e := by
  induction h with
  | @operand k _ _ _ _ hk _ ih => cases k <;> cases hk <;> exact ih hw
  | @joined k _ _ op _ _ _ _ hk ho _ _ ihl ihr =>
    rw [List.forall_mem_append, List.forall_mem_cons] at hw
    obtain ⟨hl, -, hr⟩ := hw
    cases k <;> cases hk
    · exact .binary (by revert ho; cases op <;> decide) (ihl hl) (ihr hr)
    · exact .binary (by revert ho; cases op <;> decide) (ihl hl) (ihr hr)
    · exact .joined (by revert ho; cases op <;> decide) (ihl hl) (ihr hr)
    · exact .joined (by revert ho; cases op <;> decide) (ihl hl) (ihr hr)
  | plus _ ih => exact ih (List.forall_mem_cons.mp hw).2
  | minus _ ih => exact .negate (ih (List.forall_mem_cons.mp hw).2)
  | parens _ ih | condition _ ih => exact ih (List.forall_mem_append.mp (List.forall_mem_cons.mp hw).2).1
  | name => exact .variable (hw _ (List.mem_singleton_self _))
  | number => exact .constant (hw _ (List.mem_singleton_self _))
  | not _ ih => exact .not (ih (List.forall_mem_cons.mp hw).2)
  | comparison _ _ ih => exact ih hw
  | compared ho _ _ ihl ihr =>
    rw [List.forall_mem_append, List.forall_mem_cons] at hw
    exact .compared ho (ihl hw.1) (ihr hw.2.2)

mutual

theorem isSingle_of_statement {w : List Token} {s : Stmt} (h : Statement w s) (hw : ∀ t ∈ w, t.IsSpelled) :
    s.IsSingle := by
  match h with
  | .assign h =>
    rw [List.forall_mem_cons, List.forall_mem_cons] at hw
    exact .assign hw.1 (fits_of_phrase h hw.2.2)
  | .while hc hs =>
    simp only [List.forall_mem_append, List.forall_mem_cons] at hw
    obtain ⟨⟨⟨-, hcond⟩, -, hbody⟩, -⟩ := hw
    exact .while (fits_of_phrase hc hcond) (isBody_of_block hs hbody)
  | .if h => exact isSingle_of_arm h (List.forall_mem_cons.mp hw).2
  | .action => exact .action
  | .motion h => exact .motion (fits_of_phrase h (List.forall_mem_cons.mp hw).2)

theorem isSingle_of_arm {w : List Token} {s : Stmt} (h : Arm w s) (hw : ∀ t ∈ w, t.IsSpelled) :
    s.IsSingle := by
  match h with
  | .arm hc hs ho =>
    simp only [List.forall_mem_append, List.forall_mem_cons] at hw
    obtain ⟨⟨hcond, -, hbody⟩, hother⟩ := hw
    exact .conditional (fits_of_phrase hc hcond) (isBody_of_block hs hbody)
      (isAlternative_of_elsePart ho hother)

theorem isAlternative_of_elsePart {w : List Token} {o : Option Stmt} (h : ElsePart w o)
    (hw : ∀ t ∈ w, t.IsSpelled) : Stmt.IsAlternative o := by
  match h with
  | .elsif (.arm hc hs ho) => exact .arm (isSingle_of_arm (.arm hc hs ho) (List.forall_mem_cons.mp hw).2)
  | .else h => exact .body (isBody_of_block h (List.forall_mem_append.mp (List.forall_mem_cons.mp hw).2).1)
  | .fi => exact .none

theorem isBody_of_block {w : List Token} {s : Stmt} (h : Block w s) (hw : ∀ t ∈ w, t.IsSpelled) :
    s.IsBody := by
  match h with
  | .block h => exact .block (isSeries_of_statements h hw)

theorem isSeries_of_statements {w : List Token} {ss : List Stmt} (h : Statements w ss)
    (hw : ∀ t ∈ w, t.IsSpelled) : Stmt.IsSeries ss := by
  match h with
  | .one h => exact .one (isSingle_of_statement h hw)
  | .more h hs =>
    rw [List.forall_mem_append] at hw
    exact .more (isSingle_of_statement h hw.1) (isSeries_of_statements hs hw.2)

end

namespace Program

theorem tokens_of_source {source : String} {p : Program} (h : ofSource source = .ok p) :
    ∃ w, answersOf source.toList = w.map .ok ∧ Derives w p := by
  obtain ⟨c, hc⟩ := ofReadings_eq_ok_iff.mp h
  obtain ⟨w, us, vs, hr, hu, hp, hv, ht⟩ := read_eq_ok_iff.mp hc
  have answers := answers_readings source
  rw [hr, List.map_append, hu] at answers
  rcases Cursor.next_eq_ok hv with ⟨rfl, -⟩ | ⟨r, ha, -, rfl⟩
  · rw [List.map_nil, List.append_nil] at answers
    have mem : .ok .eot ∈ w.map Except.ok := answers ▸ List.mem_append_right _ (List.mem_singleton_self _)
    obtain ⟨t, hm, he⟩ := List.mem_map.mp mem
    exact absurd (Except.ok.inj he ▸ hm) (not_mem_eot_of_derives hp)
  · rw [List.map_cons, ha, ht] at answers
    refine ⟨w, ?_, hp⟩
    rcases List.append_eq_append_iff.mp answers with ⟨as, hw, hend⟩ | ⟨bs, hw, hend⟩
    · cases as with
      | nil => rw [hw, List.append_nil]
      | cons a as =>
        obtain ⟨rfl, -⟩ := List.cons.inj hend
        have mem : .ok .eot ∈ answersOf source.toList := hw ▸ List.mem_append_right _ List.mem_cons_self
        exact False.elim (isSpelled_of_mem mem)
    · cases bs with
      | nil => rw [hw, List.append_nil]
      | cons b bs => simp at hend

theorem isWhole_of_source {source : String} {p : Program} (h : ofSource source = .ok p) : p.IsWhole := by
  obtain ⟨w, hw, hp⟩ := tokens_of_source h
  have spelled : ∀ t ∈ w, t.IsSpelled := fun t ht => isSpelled_of_mem (hw ▸ List.mem_map_of_mem ht)
  obtain ⟨ss⟩ := p
  rcases block_of_blocks hp with ⟨-, rfl⟩ | ⟨s, hs, rfl⟩
  · exact .nothing
  · exact .body (isBody_of_block hs spelled)

end Program

end Turtle
