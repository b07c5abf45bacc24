import Turtle.Execution

/-!
# Laws of the connectives

As a condition an expression is true, false or fails, and a connective answers by what its sides are as
conditions. So the laws of logic hold that keep the order in which conditions are asked, failures and
all (`Verdict`), and to reword the conditions of a program by them changes none of its runs.
-/

namespace Turtle

/-! ## True, false or failed -/

abbrev Verdict := Except Failure Bool

namespace Verdict

def opposite (a : Verdict) : Verdict := a.map (!·)

/-- The second verdict counts only where the first one is true. -/
def both (a b : Verdict) : Verdict :=
  match a with
  | .ok true => b
  | a => a

/-- The second verdict counts only where the first one is false. -/
def either (a b : Verdict) : Verdict :=
  match a with
  | .ok false => b
  | a => a

theorem opposite_opposite (a : Verdict) : a.opposite.opposite = a :=
  match a with
  | .error _ | .ok true | .ok false => rfl

theorem opposite_both (a b : Verdict) : (a.both b).opposite = a.opposite.either b.opposite :=
  match a with
  | .error _ | .ok true | .ok false => rfl

theorem opposite_either (a b : Verdict) : (a.either b).opposite = a.opposite.both b.opposite :=
  match a with
  | .error _ | .ok true | .ok false => rfl

theorem both_assoc (a b c : Verdict) : (a.both b).both c = a.both (b.both c) :=
  match a with
  | .error _ | .ok true | .ok false => rfl

theorem either_assoc (a b c : Verdict) : (a.either b).either c = a.either (b.either c) :=
  match a with
  | .error _ | .ok true | .ok false => rfl

/-- Where `a` is true it is asked once more before `c`, and is true again. -/
theorem both_either (a b c : Verdict) : a.both (b.either c) = (a.both b).either (a.both c) := by
  match a with
  | .error _ | .ok false => rfl
  | .ok true => cases b <;> rfl

/-- From the other side the law fails: `a OR b` before `AND c` leaves `b` alone where `a` is true, and
`a AND c` before `OR` does not where `c` is false. -/
example : both (either (.ok true) (.error .divisionByZero)) (.ok false) = .ok false ∧
    either (both (.ok true) (.ok false)) (both (.error .divisionByZero) (.ok false)) =
      .error .divisionByZero :=
  ⟨rfl, rfl⟩

end Verdict

/-! ## Connectives -/

theorem Number.isTrue_ofBool (b : Bool) : (Number.ofBool b).isTrue = b := by cases b <;> rfl

namespace Expr

open Verdict

variable (vars : Variables) (e l r : Expr)

theorem holds_of_eval {vars : Variables} {e : Expr} {a : Verdict} (h : e.eval vars = a.map .ofBool) :
    e.holds vars = a := by
  rw [holds, h]
  cases a with
  | error f => rfl
  | ok b => exact congrArg Except.ok (Number.isTrue_ofBool b)

theorem eval_not : (Expr.not e).eval vars = (opposite (e.holds vars)).map .ofBool := by
  rw [eval, holds]
  cases e.eval vars <;> rfl

theorem eval_and : (Expr.binary .and l r).eval vars = (both (l.holds vars) (r.holds vars)).map .ofBool := by
  rw [eval, holds, holds]
  cases l.eval vars with
  | error f => rfl
  | ok a =>
    show (if a.isTrue = true then _ else _) = (both (.ok a.isTrue) _).map _
    cases a.isTrue with
    | false => rfl
    | true => cases r.eval vars <;> rfl

theorem eval_or : (Expr.binary .or l r).eval vars = (either (l.holds vars) (r.holds vars)).map .ofBool := by
  rw [eval, holds, holds]
  cases l.eval vars with
  | error f => rfl
  | ok a =>
    show (if a.isTrue = true then _ else _) = (either (.ok a.isTrue) _).map _
    cases a.isTrue with
    | true => rfl
    | false => cases r.eval vars <;> rfl

theorem holds_not : (Expr.not e).holds vars = opposite (e.holds vars) := holds_of_eval (eval_not vars e)

theorem holds_and : (Expr.binary .and l r).holds vars = both (l.holds vars) (r.holds vars) :=
  holds_of_eval (eval_and vars l r)

theorem holds_or : (Expr.binary .or l r).holds vars = either (l.holds vars) (r.holds vars) :=
  holds_of_eval (eval_or vars l r)

/-! ## Rewording -/

inductive Law : Expr → Expr → Prop
  | notAnd {a b : Expr} : Law (.not (.binary .and a b)) (.binary .or (.not a) (.not b))
  | notOr {a b : Expr} : Law (.not (.binary .or a b)) (.binary .and (.not a) (.not b))
  | andAssoc {a b c : Expr} : Law (.binary .and (.binary .and a b) c) (.binary .and a (.binary .and b c))
  | orAssoc {a b c : Expr} : Law (.binary .or (.binary .or a b) c) (.binary .or a (.binary .or b c))
  | andOr {a b c : Expr} : Law (.binary .and a (.binary .or b c))
      (.binary .or (.binary .and a b) (.binary .and a c))

/-- One condition comes from the other by laws, in either direction, in any places below the
connectives. That a double negation can go is a law of conditions only: the number is another one. -/
inductive Reworded : Expr → Expr → Prop
  | refl {c : Expr} : Reworded c c
  | symm {c d : Expr} (h : Reworded c d) : Reworded d c
  | trans {c d e : Expr} (h : Reworded c d) (h' : Reworded d e) : Reworded c e
  | law {c d : Expr} (h : Law c d) : Reworded c d
  | notNot {c : Expr} : Reworded (.not (.not c)) c
  | not {c d : Expr} (h : Reworded c d) : Reworded (.not c) (.not d)
  | joined {op : Operator} {a b c d : Expr} (ho : op ∈ [.and, .or]) (h : Reworded a c) (h' : Reworded b d) :
    Reworded (.binary op a b) (.binary op c d)

variable {c d : Expr}

theorem Law.eval_eq (h : Law c d) : c.eval vars = d.eval vars := by
  cases h with
  | notAnd => rw [eval_not, eval_or, holds_and, holds_not, holds_not, opposite_both]
  | notOr => rw [eval_not, eval_and, holds_or, holds_not, holds_not, opposite_either]
  | andAssoc => rw [eval_and, eval_and, holds_and, holds_and, both_assoc]
  | orAssoc => rw [eval_or, eval_or, holds_or, holds_or, either_assoc]
  | andOr => rw [eval_and, eval_or, holds_or, holds_and, holds_and, both_either]

theorem holds_notNot : (Expr.not (.not e)).holds vars = e.holds vars := by
  rw [holds_not, holds_not, opposite_opposite]

theorem Reworded.holds_eq (h : Reworded c d) : c.holds vars = d.holds vars := by
  induction h with
  | refl => rfl
  | symm _ ih => exact ih.symm
  | trans _ _ ih ih' => exact ih.trans ih'
  | law h => rw [holds, holds, h.eval_eq]
  | notNot => exact holds_notNot vars _
  | not _ ih => rw [holds_not, holds_not, ih]
  | @joined op _ _ _ _ ho _ _ ih ih' =>
    cases op with
    | and => rw [holds_and, holds_and, ih, ih']
    | or => rw [holds_or, holds_or, ih, ih']
    | _ => simp at ho

end Expr

/-! ## Programs -/

namespace Stmt

mutual

/-- The statements differ in the wording of conditions, and in conditionals that are turned around. -/
inductive Reworded : Stmt → Stmt → Prop
  | refl {s : Stmt} : Reworded s s
  | symm {s t : Stmt} (h : Reworded s t) : Reworded t s
  | trans {s t u : Stmt} (h : Reworded s t) (h' : Reworded t u) : Reworded s u
  | block {ss ts : List Stmt} (h : RewordedAll ss ts) : Reworded (.block ss) (.block ts)
  | while {c d : Expr} {s t : Stmt} (hc : c.Reworded d) (hs : Reworded s t) :
      Reworded (.while c s) (.while d t)
  | conditional {c d : Expr} {s t : Stmt} {o o' : Option Stmt} (hc : c.Reworded d) (hs : Reworded s t)
    (ho : RewordedAlternative o o') : Reworded (.conditional c s o) (.conditional d t o')
  | turned {c : Expr} {s t : Stmt} : Reworded (.conditional (.not c) s (some t)) (.conditional c t (some s))

inductive RewordedAll : List Stmt → List Stmt → Prop
  | nil : RewordedAll [] []
  | cons {s t : Stmt} {ss ts : List Stmt} (h : Reworded s t) (hs : RewordedAll ss ts) :
    RewordedAll (s :: ss) (t :: ts)

inductive RewordedAlternative : Option Stmt → Option Stmt → Prop
  | none : RewordedAlternative none none
  | some {s t : Stmt} (h : Reworded s t) : RewordedAlternative (some s) (some t)

end

end Stmt

def Program.Reworded (p q : Program) : Prop := Stmt.RewordedAll p.statements q.statements

section
variable {σ : Type} [Sink σ]

theorem exec_turned (limit : Nat) (c : Expr) (s t : Stmt) (m : Machine σ) :
    (Stmt.conditional (.not c) s (some t)).exec limit m = (Stmt.conditional c t (some s)).exec limit m := by
  rw [Stmt.exec, Stmt.exec, Expr.holds_not]
  cases c.holds m.vars with
  | error f => rfl
  | ok b => cases b <;> rfl

mutual

theorem exec_reword {s t : Stmt} (h : s.Reworded t) (limit : Nat) (m : Machine σ) :
    s.exec limit m = t.exec limit m := by
  match h with
  | .refl => rfl
  | .symm h => exact (exec_reword h limit m).symm
  | .trans h h' => exact (exec_reword h limit m).trans (exec_reword h' limit m)
  | .block h => exact execAll_reword h limit m
  | .while hc hs =>
    rw [Stmt.exec, Stmt.exec, funext fun m : Machine σ => hc.holds_eq m.vars, funext (exec_reword hs limit)]
  | .conditional hc hs ho =>
    rw [Stmt.exec, Stmt.exec, hc.holds_eq m.vars, exec_reword hs limit m, execAlternative_reword ho limit m]
  | .turned => exact exec_turned limit _ _ _ m

theorem execAll_reword {ss ts : List Stmt} (h : Stmt.RewordedAll ss ts) (limit : Nat) (m : Machine σ) :
    Stmt.execAll limit ss m = Stmt.execAll limit ts m := by
  match h with
  | .nil => rfl
  | .cons h hs => rw [Stmt.execAll, Stmt.execAll, exec_reword h limit m, funext (execAll_reword hs limit)]

theorem execAlternative_reword {o o' : Option Stmt} (h : Stmt.RewordedAlternative o o') (limit : Nat)
    (m : Machine σ) : Stmt.execAlternative limit o m = Stmt.execAlternative limit o' m := by
  match h with
  | .none => rfl
  | .some h => exact exec_reword h limit m

end

end

namespace Program

/-- The laws of De Morgan hold for what the connectives answer, and so do association and distribution
from the left, whatever fails in them; as a condition, what is negated twice is as it was. So programs
that differ only in the wording of their conditions, and in conditionals that are turned around, run
alike: with as many passes, into any sink. -/
theorem exec_reworded :
    (∀ (vars : Variables) (a b c : Expr),
      (Expr.not (.binary .and a b)).eval vars = (Expr.binary .or (.not a) (.not b)).eval vars ∧
      (Expr.not (.binary .or a b)).eval vars = (Expr.binary .and (.not a) (.not b)).eval vars ∧
      (Expr.binary .and (.binary .and a b) c).eval vars = (Expr.binary .and a (.binary .and b c)).eval vars ∧
      (Expr.binary .or (.binary .or a b) c).eval vars = (Expr.binary .or a (.binary .or b c)).eval vars ∧
      (Expr.binary .and a (.binary .or b c)).eval vars =
        (Expr.binary .or (.binary .and a b) (.binary .and a c)).eval vars ∧
      (Expr.not (.not a)).holds vars = a.holds vars) ∧
    ∀ {p q : Program}, p.Reworded q → ∀ {σ : Type} [Sink σ] (limit : Nat) (m : Machine σ),
      p.exec limit m = q.exec limit m := by
  refine ⟨fun vars a b c => ⟨?_, ?_, ?_, ?_, ?_, ?_⟩, fun h _ _ limit m => execAll_reword h limit m⟩
  · exact Expr.Law.notAnd.eval_eq vars
  · exact Expr.Law.notOr.eval_eq vars
  · exact Expr.Law.andAssoc.eval_eq vars
  · exact Expr.Law.orAssoc.eval_eq vars
  · exact Expr.Law.andOr.eval_eq vars
  · exact Expr.holds_notNot vars a

/-- `IF NOT a OR NOT b THEN HOME ELSE PENUP FI` asks `a` only, where that is zero, like `IF a AND b THEN
PENUP ELSE HOME FI`, and both fail where `b` is asked and unknown. -/
theorem exec_reworded_turned :
    Reworded
      ⟨[.conditional (.binary .or (.not (.variable "a")) (.not (.variable "b"))) (.action .home)
        (some (.action .penUp))]⟩
      ⟨[.conditional (.binary .and (.variable "a") (.variable "b")) (.action .penUp)
        (some (.action .home))]⟩ ∧
    (⟨[.conditional (.binary .or (.not (.variable "a")) (.not (.variable "b"))) (.action .home)
        (some (.action .penUp))]⟩ : Program).exec 0
          ⟨⟨.ofList [("a", .zero)], .reject⟩, (#[] : Array Command)⟩ =
      some ⟨⟨⟨.ofList [("a", .zero)], .reject⟩, #[.home]⟩, none⟩ ∧
    (⟨[.conditional (.binary .or (.not (.variable "a")) (.not (.variable "b"))) (.action .home)
        (some (.action .penUp))]⟩ : Program).exec 0
          ⟨⟨.ofList [("a", .one)], .reject⟩, (#[] : Array Command)⟩ =
      some ⟨⟨⟨.ofList [("a", .one)], .reject⟩, #[]⟩, some (.unknownVariable "b")⟩ := by
  have negated : Stmt.Reworded
      (.conditional (.binary .or (.not (.variable "a")) (.not (.variable "b"))) (.action .home)
        (some (.action .penUp))) _ :=
    .conditional (.symm (.law .notAnd)) .refl (.some .refl)
  have reworded : Reworded ⟨[_]⟩ ⟨[_]⟩ := .cons (.trans negated .turned) .nil
  exact ⟨reworded, (exec_reworded.2 reworded 0 _).trans rfl, (exec_reworded.2 reworded 0 _).trans rfl⟩

end Program

end Turtle
