import Turtle.Proofs.Program.Image

/-!
# What a run tests

Every number but the zeros counts as true, but a source has no means to tell: what its runs test is 1 or
0. To say so a run is told once more, with a record of the numbers that are tested for being true on the
way (`result_execAll`: it is the same run). The conditions of a source are comparisons and what is
joined from these, and numbers are not tested (`all_eval_amount`, `all_eval_test`).
-/

namespace Turtle

/-! ## Records of tests -/

/-- A result, with the numbers that were tested for being true on the way to it. -/
structure Tested (α : Type) where
  result : α
  tests : List Number

namespace Tested

variable {α β : Type} {P : Number → Prop}

instance : Monad Tested where
  pure a := ⟨a, []⟩
  bind t f := ⟨(f t.result).result, t.tests ++ (f t.result).tests⟩

theorem result_bind (t : Tested α) (f : α → Tested β) : (t >>= f).result = (f t.result).result := rfl

def All (P : Number → Prop) (t : Tested α) : Prop := ∀ v ∈ t.tests, P v

theorem all_pure (a : α) : All P (pure a : Tested α) := List.forall_mem_nil _

theorem all_bind {t : Tested α} {f : α → Tested β} (ht : All P t) (hf : All P (f t.result)) :
    All P (t >>= f) :=
  List.forall_mem_append.mpr ⟨ht, hf⟩

end Tested

abbrev Testing : Type → Type := ExceptT Failure Tested

namespace Testing

variable {α β : Type} {P : Number → Prop}

def test (v : Number) : Testing Bool := .mk ⟨.ok v.isTrue, [v]⟩

def answer (r : Except Failure α) : Testing α := .mk (pure r)

theorem result_test (v : Number) (f : Bool → Testing α) :
    (test v >>= f).run.result = (f v.isTrue).run.result := rfl

theorem result_bind (t : Testing α) (f : α → Testing β) :
    (t >>= f).run.result = t.run.result >>= fun a => (f a).run.result := by
  show (ExceptT.bindCont f t.run.result).result = _
  cases t.run.result <;> rfl

theorem all_bind {t : Testing α} {f : α → Testing β} (ht : t.run.All P)
    (hf : ∀ a, t.run.result = .ok a → (f a).run.All P) : (t >>= f).run.All P := by
  have rest : (ExceptT.bindCont f t.run.result).All P := by
    cases hr : t.run.result with
    | error e => exact Tested.all_pure _
    | ok a => exact hf a hr
  exact Tested.all_bind (f := ExceptT.bindCont f) ht rest

end Testing

/-! ## Evaluations -/

namespace Expr

open Testing

def evalTested (vars : Variables) : Expr → Testing Number
  | .variable name => answer (vars.get name)
  | .constant v => answer (.ok v)
  | .negate e => do return -(← e.evalTested vars)
  | .not e => do return .ofBool !(← test (← e.evalTested vars))
  | .binary .and l r => do
    if ← test (← l.evalTested vars) then return .ofBool (← test (← r.evalTested vars))
    else return .ofBool false
  | .binary .or l r => do
    if ← test (← l.evalTested vars) then return .ofBool true
    else return .ofBool (← test (← r.evalTested vars))
  | .binary op l r => do
    let left ← l.evalTested vars
    let right ← r.evalTested vars
    answer (if op.isArithmetic then op.arithmetic left right else op.comparison left right)

def holdsTested (vars : Variables) (e : Expr) : Testing Bool := do test (← e.evalTested vars)

theorem result_eval (vars : Variables) (e : Expr) : (e.evalTested vars).run.result = e.eval vars := by
  induction e with
  | «variable» | constant => rfl
  | negate e ih | not e ih =>
    rw [evalTested, eval, result_bind, ih]
    rfl
  | binary op l r ihl ihr =>
    cases op with
    | and =>
      rw [evalTested, eval, result_bind, ihl]
      refine congrArg _ (funext fun a => ?_)
      rw [result_test]
      split
      · rw [result_bind, ihr]
        rfl
      · rfl
    | or =>
      rw [evalTested, eval, result_bind, ihl]
      refine congrArg _ (funext fun a => ?_)
      rw [result_test]
      split
      · rfl
      · rw [result_bind, ihr]
        rfl
    | _ =>
      rw [evalTested, eval, result_bind, ihl]
      · refine congrArg _ (funext fun a => ?_)
        rw [result_bind, ihr]
        rfl
      all_goals nofun

theorem result_holds (vars : Variables) (e : Expr) : (e.holdsTested vars).run.result = e.holds vars := by
  rw [holdsTested, holds, result_bind, result_eval]
  rfl

end Expr

/-! ## Runs -/

section
variable {σ : Type} [Sink σ]

def iterateTested (test : Machine σ → Tested (Except Failure Bool))
    (body : Machine σ → Tested (Option (Ending σ))) :
    Nat → Nat → Machine σ → Tested (Option (Ending σ))
  | 0, _, _ => return none
  | limit + 1, count, m => do
    match ← test m with
    | .error f => return some (m.fail f)
    | .ok false => return some m.succeed
    | .ok true =>
      match ← body (m.pass (count + 1)) with
      | none => return none
      | some ⟨m', some f⟩ => return some (m'.fail f)
      | some ⟨m', none⟩ => iterateTested test body limit (count + 1) m'

namespace Stmt

mutual

/-- The run of a statement with its record, which also tells of the passes before a
bound that is too small. -/
def execTested (limit : Nat) : Stmt → Machine σ → Tested (Option (Ending σ))
  | .assign name value, m => do
    match ← (value.evalTested m.vars).run with
    | .ok v => return some { m with vars := m.vars.put name v }.succeed
    | .error f => return some (m.fail f)
  | .block body, m => execAllTested limit body m
  | .while test body, m =>
    iterateTested (fun m => (test.holdsTested m.vars).run) (fun m => body.execTested limit m) limit 0 m
  | .conditional test body alternative, m => do
    match ← (test.holdsTested m.vars).run with
    | .ok true => body.execTested limit m
    | .ok false => execAlternativeTested limit alternative m
    | .error f => return some (m.fail f)
  | .action a, m => return some (m.emit a.command)
  | .motion k amount, m => do
    match ← (amount.evalTested m.vars).run with
    | .ok v => return some (m.emit (k.command v))
    | .error f => return some (m.fail f)

def execAllTested (limit : Nat) : List Stmt → Machine σ → Tested (Option (Ending σ))
  | [], m => return some m.succeed
  | s :: ss, m => do
    match ← s.execTested limit m with
    | none => return none
    | some ⟨m', some f⟩ => return some (m'.fail f)
    | some ⟨m', none⟩ => execAllTested limit ss m'

def execAlternativeTested (limit : Nat) : Option Stmt → Machine σ → Tested (Option (Ending σ))
  | none, m => return some m.succeed
  | some s, m => s.execTested limit m

end

end Stmt

def Program.execTested (limit : Nat) (p : Program) (m : Machine σ) : Tested (Option (Ending σ)) :=
  Stmt.execAllTested limit p.statements m

/-! ## The record changes nothing -/

theorem result_iterate {test : Machine σ → Tested (Except Failure Bool)}
    {test' : Machine σ → Except Failure Bool} {body : Machine σ → Tested (Option (Ending σ))}
    {body' : Machine σ → Option (Ending σ)} (ht : ∀ m, (test m).result = test' m)
    (hb : ∀ m, (body m).result = body' m) (limit count : Nat) (m : Machine σ) :
    (iterateTested test body limit count m).result = iterate test' body' limit count m := by
  induction limit generalizing count m with
  | zero => rfl
  | succ limit ih =>
    rw [iterateTested, iterate, Tested.result_bind, ht]
    cases test' m with
    | error f => rfl
    | ok b =>
      cases b with
      | false => rfl
      | true =>
        dsimp only
        rw [Tested.result_bind, hb]
        rcases body' (m.pass (count + 1)) with _ | ⟨m', _ | f⟩
        · rfl
        · exact ih (count + 1) m'
        · rfl

mutual

theorem result_exec (limit : Nat) (s : Stmt) (m : Machine σ) :
    (s.execTested limit m).result = s.exec limit m := by
  match s with
  | .assign x e =>
    rw [Stmt.execTested, Stmt.exec, Tested.result_bind, Expr.result_eval]
    cases e.eval m.vars <;> rfl
  | .block ss => exact result_execAll limit ss m
  | .while c s => exact result_iterate (fun m => c.result_holds m.vars) (result_exec limit s) limit 0 m
  | .conditional c s o =>
    rw [Stmt.execTested, Stmt.exec, Tested.result_bind, Expr.result_holds]
    match c.holds m.vars with
    | .error f => rfl
    | .ok true => exact result_exec limit s m
    | .ok false => exact result_execAlternative limit o m
  | .action a => rfl
  | .motion k e =>
    rw [Stmt.execTested, Stmt.exec, Tested.result_bind, Expr.result_eval]
    cases e.eval m.vars <;> rfl

theorem result_execAll (limit : Nat) (ss : List Stmt) (m : Machine σ) :
    (Stmt.execAllTested limit ss m).result = Stmt.execAll limit ss m := by
  match ss with
  | [] => rfl
  | s :: ss =>
    rw [Stmt.execAllTested, Stmt.execAll, Tested.result_bind, result_exec limit s m]
    match s.exec limit m with
    | none => rfl
    | some ⟨m', some f⟩ => rfl
    | some ⟨m', none⟩ => exact result_execAll limit ss m'

theorem result_execAlternative (limit : Nat) (o : Option Stmt) (m : Machine σ) :
    (Stmt.execAlternativeTested limit o m).result = Stmt.execAlternative limit o m := by
  match o with
  | none => rfl
  | some s => exact result_exec limit s m

end

theorem execAllTested_one (limit : Nat) (s : Stmt) (m : Machine σ) :
    Stmt.execAllTested limit [s] m = s.execTested limit m := by
  rw [Stmt.execAllTested]
  obtain ⟨_ | ⟨m', _ | f⟩, tests⟩ := s.execTested limit m <;>
    exact congrArg (Tested.mk _) (List.append_nil tests)

end

/-! ## Truth values -/

def Number.IsBit (v : Number) : Prop := v = .one ∨ v = .zero

theorem Number.isBit_ofBool (b : Bool) : (Number.ofBool b).IsBit := by
  cases b
  · exact .inr rfl
  · exact .inl rfl

theorem Operator.isBit_of_comparison {op : Operator} {left right v : Number}
    (h : op.comparison left right = .ok v) :
    v.IsBit := by
  cases op <;> cases h <;> exact Number.isBit_ofBool _

namespace Expr

variable {vars : Variables} {v : Number}

theorem isBit_of_not {e : Expr} (h : (Expr.not e).eval vars = .ok v) : v.IsBit := by
  rw [eval] at h
  obtain ⟨a, -, h⟩ := Parser.ok_of_bind h
  cases h
  exact Number.isBit_ofBool _

theorem isBit_of_binary {op : Operator} {l r : Expr} (ho : op.isArithmetic = false)
    (h : (Expr.binary op l r).eval vars = .ok v) : v.IsBit := by
  cases op with
  | and =>
    rw [eval] at h
    obtain ⟨a, -, h⟩ := Parser.ok_of_bind h
    split at h
    · obtain ⟨b, -, h⟩ := Parser.ok_of_bind h
      cases h
      exact Number.isBit_ofBool _
    · cases h
      exact Number.isBit_ofBool _
  | or =>
    rw [eval] at h
    obtain ⟨a, -, h⟩ := Parser.ok_of_bind h
    split at h
    · cases h
      exact Number.isBit_ofBool _
    · obtain ⟨b, -, h⟩ := Parser.ok_of_bind h
      cases h
      exact Number.isBit_ofBool _
  | _ =>
    rw [eval] at h
    · obtain ⟨a, -, h⟩ := Parser.ok_of_bind h
      obtain ⟨b, -, h⟩ := Parser.ok_of_bind h
      rw [if_neg (by rw [ho]; exact Bool.false_ne_true)] at h
      exact Operator.isBit_of_comparison h
    all_goals nofun

theorem isBit_of_isTest {e : Expr} (he : e.IsTest) (h : e.eval vars = .ok v) : v.IsBit := by
  cases he with
  | not _ => exact isBit_of_not h
  | joined ho _ _ => exact isBit_of_binary (by revert ho; cases ‹Operator› <;> decide) h
  | compared ho _ _ => exact isBit_of_binary (by revert ho; cases ‹Operator› <;> decide) h

/-! ## What a source tests -/

/-- In a number nothing is tested. -/
theorem all_eval_amount {P : Number → Prop} {e : Expr} (h : e.IsAmount) : (e.evalTested vars).run.All P := by
  induction h with
  | «variable» | constant => exact Tested.all_pure _
  | negate _ ih => exact Testing.all_bind ih fun _ _ => Tested.all_pure _
  | @binary op l r ho _ _ ihl ihr =>
    rw [evalTested]
    · exact Testing.all_bind ihl fun _ _ => Testing.all_bind ihr fun _ _ => Tested.all_pure _
    all_goals
      rintro rfl
      cases ho

theorem all_test {P : Number → Prop} {v : Number} (h : P v) : (Testing.test v).run.All P :=
  List.forall_mem_singleton.mpr h

theorem all_bind_test {α : Type} {e : Expr} (he : e.IsTest) (h : (e.evalTested vars).run.All Number.IsBit)
    {f : Bool → Testing α} (hf : ∀ b, (f b).run.All Number.IsBit) :
    (e.evalTested vars >>= fun a => Testing.test a >>= f).run.All Number.IsBit := by
  refine Testing.all_bind h fun a ha => Testing.all_bind (all_test ?_) fun b _ => hf b
  rw [result_eval] at ha
  exact isBit_of_isTest he ha

theorem all_eval_test {e : Expr} (h : e.IsTest) : (e.evalTested vars).run.All Number.IsBit := by
  induction h with
  | not h ih => exact all_bind_test h ih fun _ => Tested.all_pure _
  | @joined op l r ho hl hr ihl ihr =>
    have right {f : Bool → Testing Number} (hf : ∀ b, (f b).run.All Number.IsBit) := all_bind_test hr ihr hf
    cases op with
    | and =>
      refine all_bind_test hl ihl fun b => ?_
      cases b with
      | true => exact right fun _ => Tested.all_pure _
      | false => exact Tested.all_pure _
    | or =>
      refine all_bind_test hl ihl fun b => ?_
      cases b with
      | true => exact Tested.all_pure _
      | false => exact right fun _ => Tested.all_pure _
    | _ => simp at ho
  | @compared op l r ho hl hr =>
    rw [evalTested]
    · exact Testing.all_bind (all_eval_amount hl) fun _ _ => Testing.all_bind (all_eval_amount hr) fun _ _ =>
        Tested.all_pure _
    all_goals
      rintro rfl
      cases ho

theorem all_holds_test {e : Expr} (h : e.IsTest) : (e.holdsTested vars).run.All Number.IsBit := by
  refine Testing.all_bind (all_eval_test h) fun a ha => all_test ?_
  rw [result_eval] at ha
  exact isBit_of_isTest h ha

end Expr

section
variable {σ : Type} [Sink σ] {P : Number → Prop}

theorem all_iterate {test : Machine σ → Tested (Except Failure Bool)}
    {body : Machine σ → Tested (Option (Ending σ))} (ht : ∀ m, (test m).All P) (hb : ∀ m, (body m).All P)
    (limit count : Nat) (m : Machine σ) :
    (iterateTested test body limit count m).All P := by
  induction limit generalizing count m with
  | zero => exact Tested.all_pure _
  | succ limit ih =>
    rw [iterateTested]
    refine Tested.all_bind (ht m) ?_
    match (test m).result with
    | .error f => exact Tested.all_pure _
    | .ok false => exact Tested.all_pure _
    | .ok true =>
      refine Tested.all_bind (hb (m.pass (count + 1))) ?_
      match (body (m.pass (count + 1))).result with
      | none => exact Tested.all_pure _
      | some ⟨m', some f⟩ => exact Tested.all_pure _
      | some ⟨m', none⟩ => exact ih (count + 1) m'

mutual

theorem all_exec_single {s : Stmt} (h : s.IsSingle) (limit : Nat) (m : Machine σ) :
    (s.execTested limit m).All Number.IsBit := by
  match h with
  | .assign _ he =>
    rw [Stmt.execTested]
    refine Tested.all_bind (Expr.all_eval_amount he) ?_
    split <;> exact Tested.all_pure _
  | .while hc hs =>
    exact all_iterate (fun m => Expr.all_holds_test hc) (fun m => all_exec_body hs limit m) limit 0 m
  | @Stmt.IsSingle.conditional c s o hc hs ho =>
    rw [Stmt.execTested]
    refine Tested.all_bind (Expr.all_holds_test hc) ?_
    split
    · exact all_exec_body hs limit m
    · exact all_exec_alternative ho limit m
    · exact Tested.all_pure _
  | .action => exact Tested.all_pure _
  | .motion he =>
    rw [Stmt.execTested]
    refine Tested.all_bind (Expr.all_eval_amount he) ?_
    split <;> exact Tested.all_pure _

theorem all_exec_body {s : Stmt} (h : s.IsBody) (limit : Nat) (m : Machine σ) :
    (s.execTested limit m).All Number.IsBit := by
  match h with
  | .block h => exact all_exec_series h limit m

theorem all_exec_series {ss : List Stmt} (h : Stmt.IsSeries ss) (limit : Nat) (m : Machine σ) :
    (Stmt.execAllTested limit ss m).All Number.IsBit := by
  match h with
  | .one h =>
    rw [execAllTested_one]
    exact all_exec_single h limit m
  | .more h hs =>
    rw [Stmt.execAllTested]
    refine Tested.all_bind (all_exec_single h limit m) ?_
    split
    · exact Tested.all_pure _
    · exact Tested.all_pure _
    · exact all_exec_series hs limit _

theorem all_exec_alternative {o : Option Stmt} (h : Stmt.IsAlternative o) (limit : Nat) (m : Machine σ) :
    (Stmt.execAlternativeTested limit o m).All Number.IsBit := by
  match h with
  | .none => exact Tested.all_pure _
  | .arm h => exact all_exec_single h limit m
  | .body h => exact all_exec_body h limit m

end

namespace Program

theorem all_exec {p : Program} (h : p.IsWhole) (limit : Nat) (m : Machine σ) :
    (p.execTested limit m).All Number.IsBit := by
  cases h with
  | nothing => exact Tested.all_pure _
  | body h =>
    rw [execTested, execAllTested_one]
    exact all_exec_body h limit m

end Program

end

namespace Program

/-- Whatever a run of a source tests for being true, on its way to an end, to a failure or to none, is
one or the positive zero, and so is what a connective or a comparison answers in any tree. -/
theorem exec_tests_bits : (∀ {source : String} {p : Program}, ofSource source = .ok p →
      ∀ {σ : Type} [Sink σ] (limit : Nat) (m : Machine σ), (p.execTested limit m).result = p.exec limit m ∧
        ∀ v ∈ (p.execTested limit m).tests, v = .one ∨ v = .zero) ∧
    ∀ vars v, (∀ e, (Expr.not e).eval vars = .ok v → v = .one ∨ v = .zero) ∧
      ∀ op l r, op.isArithmetic = false → (Expr.binary op l r).eval vars = .ok v → v = .one ∨ v = .zero := by
  refine ⟨fun h _ _ limit m => ⟨result_execAll limit _ m, all_exec (isWhole_of_source h) limit m⟩,
    fun vars v => ?_⟩
  exact ⟨fun _ => Expr.isBit_of_not, fun _ _ _ => Expr.isBit_of_binary⟩

/-- An infinity less itself is no number and not less than anything, and the negation of that is tested as
one. What is no number is true by itself, but only a tree without a source joins it to a condition. -/
theorem exec_tests_bits_nan :
    (∃ p, ofSource "IF ( NOT ( + ( 1e39 - 1e39 ) < 1e39 ) ) THEN HOME FI" = .ok p ∧
      (p.execTested 0 ⟨.empty, (#[] : Array Command)⟩).tests = [.zero, .one] ∧
      ∀ v ∈ (p.execTested 0 ⟨.empty, (#[] : Array Command)⟩).tests, v = .one ∨ v = .zero) ∧
    ((Expr.not (.constant (.ofBits 0x7fc00000))).eval .empty = .ok .zero ∧
    (Number.zero = .one ∨ Number.zero = .zero)) ∧
    (Expr.binary .or (.constant (.ofBits 0x7fc00000)) (.variable "a")).eval .empty = .ok .one ∧
      (Number.one = .one ∨ Number.one = .zero) := by
  let inf : Expr := .constant (Magnitude.infinity.toNumber false)
  have number : inf.IsAmount := .constant ⟨Magnitude.infinity, rfl⟩
  have less : Operator.less.isRelational = true := rfl
  have sub : Operator.sub.isArithmetic = true := rfl
  have test : Expr.IsTest _ := .not (.compared less (.binary sub number number) number)
  have whole : IsWhole _ :=
    .body (.block (.one (.conditional test (.block (.one (.action (a := .home)))) .none)))
  have read := ofSource_source whole
  rw [show source _ = "IF ( NOT ( + ( 1e39 - 1e39 ) < 1e39 ) ) THEN HOME FI" by decide +kernel] at read
  have negated : (Expr.not (.constant (.ofBits 0x7fc00000))).eval .empty = .ok .zero := rfl
  have joined : (Expr.binary .or (.constant (.ofBits 0x7fc00000)) (.variable "a")).eval .empty =
      .ok .one := rfl
  exact ⟨⟨_, read, rfl, (exec_tests_bits.1 read 0 _).2⟩, ⟨negated, (exec_tests_bits.2 _ _).1 _ negated⟩,
    joined, (exec_tests_bits.2 _ _).2 .or _ _ rfl joined⟩

end Program

end Turtle
