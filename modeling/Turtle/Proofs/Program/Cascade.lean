import Turtle.Proofs.Execution.Tests
import Turtle.Proofs.Program.Composition

/-!
# Conditionals of many arms

The arms of a conditional are tried in order, all from where the conditional began, and the first that
applies is the only one to run. It is read with each arm in the place of the alternative of the one
before it, so that to write an alternative with a conditional of its own there makes no difference but
for the words.
-/

namespace Turtle

open Grammar

/-! ## How they are written -/

/-- A condition and what is done if it holds, with the tokens of both. -/
structure Branch where
  conditionTokens : List Token
  bodyTokens : List Token
  condition : Expr
  body : Stmt
  phrase : Phrase .bool conditionTokens condition
  block : Block bodyTokens body

structure Fallback where
  tokens : List Token
  body : Stmt
  block : Block tokens body

structure Cascade where
  first : Branch
  more : List Branch
  fallback? : Option Fallback

namespace Branch

def tokens (b : Branch) : List Token := b.conditionTokens ++ .keyword .then :: b.bodyTokens

def arm (b : Branch) (alternative : Option Stmt) : Stmt := .conditional b.condition b.body alternative

end Branch

/-- Arms in the place of an alternative, each in the place of the alternative of the one before. -/
def arms (bs : List Branch) (o : Option Stmt) : Option Stmt := bs.foldr (fun b o => some (b.arm o)) o

def nestedArms (bs : List Branch) (o : Option Stmt) : Option Stmt :=
  bs.foldr (fun b o => some (.block [b.arm o])) o

namespace Cascade

variable (ch : Cascade)

def branches : List Branch := ch.first :: ch.more

def elseTokens : List Token := ch.fallback?.toList.flatMap fun f => .keyword .else :: f.tokens

def tokens : List Token :=
  .keyword .if :: ch.first.tokens ++ ch.more.flatMap (fun b => .keyword .elsif :: b.tokens) ++
    ch.elseTokens ++ [.keyword .fi]

def nestedTokens : List Token :=
  .keyword .if :: ch.first.tokens ++ ch.more.flatMap (fun b => .keyword .else :: .keyword .if :: b.tokens) ++
    ch.elseTokens ++ List.replicate ch.branches.length (.keyword .fi)

/-! ## How they are read -/

def alternative : Option Stmt := ch.fallback?.map Fallback.body

def tree : Stmt := ch.first.arm (arms ch.more ch.alternative)

def nestedTree : Stmt := ch.first.arm (nestedArms ch.more ch.alternative)

def program : Program := ⟨[.block [ch.tree]]⟩

def nestedProgram : Program := ⟨[.block [ch.nestedTree]]⟩

theorem elsePart_of_more (bs : List Branch) :
    ElsePart (bs.flatMap (fun b => .keyword .elsif :: b.tokens) ++ ch.elseTokens ++ [.keyword .fi])
      (arms bs ch.alternative) := by
  induction bs with
  | nil =>
    unfold elseTokens alternative
    cases ch.fallback? with
    | none => exact .fi
    | some f =>
      rw [Option.toList_some, List.flatMap_nil, List.nil_append, List.flatMap_singleton]
      exact .else f.block
  | cons b bs ih =>
    rw [List.flatMap_cons, List.append_assoc, List.append_assoc, ← List.append_assoc (List.flatMap _ bs)]
    exact .elsif (.arm b.phrase b.block ih)

theorem statement_tree : Statement ch.tokens ch.tree := by
  have h := Statement.if (.arm ch.first.phrase ch.first.block (ch.elsePart_of_more ch.more))
  rwa [← List.append_assoc, ← List.append_assoc] at h

theorem elsePart_of_nested (bs : List Branch) :
    ElsePart (bs.flatMap (fun b => .keyword .else :: .keyword .if :: b.tokens) ++ ch.elseTokens ++
        List.replicate (bs.length + 1) (.keyword .fi))
      (nestedArms bs ch.alternative) := by
  induction bs with
  | nil => exact ch.elsePart_of_more []
  | cons b bs ih =>
    rw [List.flatMap_cons, List.length_cons, List.replicate_succ', ← List.append_assoc,
      List.append_assoc (_ :: _), List.append_assoc (_ :: _)]
    exact .else (.block (.one (.if (.arm b.phrase b.block ih))))

theorem statement_nestedTree : Statement ch.nestedTokens ch.nestedTree := by
  have h := Statement.if (.arm ch.first.phrase ch.first.block (ch.elsePart_of_nested ch.more))
  rwa [← List.append_assoc, ← List.append_assoc] at h

end Cascade

theorem Program.ofSource_of_statement {source : String} {w : List Token} {s : Stmt}
    (h : answersOf source.toList = w.map .ok) (hs : Statement w s) : ofSource source = .ok ⟨[.block [s]]⟩ :=
  (ofSource_eq_ok_iff h).mpr (derives_block (.block (.one hs)))

/-! ## How they run -/

section
variable {σ : Type} [Sink σ] (limit : Nat) (m : Machine σ)

theorem Program.execTested_block (s : Stmt) :
    (Program.mk [.block [s]]).execTested limit m = s.execTested limit m := by
  rw [execTested, execAllTested_one, Stmt.execTested, execAllTested_one]

namespace Branch

def tests (b : Branch) (vars : Variables) : List Number := (b.condition.holdsTested vars).run.tests

theorem execTested_arm (b : Branch) (o : Option Stmt) : (b.arm o).execTested limit m =
    match b.condition.holds m.vars with
    | .ok true => ⟨(b.body.execTested limit m).result, b.tests m.vars ++ (b.body.execTested limit m).tests⟩
    | .ok false => ⟨(Stmt.execAlternativeTested limit o m).result,
        b.tests m.vars ++ (Stmt.execAlternativeTested limit o m).tests⟩
    | .error f => ⟨some (m.fail f), b.tests m.vars⟩ := by
  rw [← b.condition.result_holds, arm, Stmt.execTested, tests]
  show Tested.mk _ (_ ++ _) = _
  match (b.condition.holdsTested m.vars).run.result with
  | .ok true => rfl
  | .ok false => rfl
  | .error f => exact congrArg (Tested.mk _) (List.append_nil _)

end Branch

theorem execTested_nested (bs : List Branch) (o : Option Stmt) :
    Stmt.execAlternativeTested limit (nestedArms bs o) m =
      Stmt.execAlternativeTested limit (arms bs o) m := by
  induction bs with
  | nil => rfl
  | cons b bs ih =>
    show Stmt.execAlternativeTested limit (some (.block [b.arm (nestedArms bs o)])) m =
      Stmt.execAlternativeTested limit (some (b.arm (arms bs o))) m
    rw [Stmt.execAlternativeTested, Stmt.execAlternativeTested, Stmt.execTested,
      execAllTested_one, Branch.execTested_arm, Branch.execTested_arm, ih]

variable {m}

/-- Arms whose conditions do not hold are passed, and leave nothing but their tests. -/
theorem execTested_passed {before : List Branch} (h : ∀ a ∈ before, a.condition.holds m.vars = .ok false)
    (rest : List Branch) (o : Option Stmt) :
    Stmt.execAlternativeTested limit (arms (before ++ rest) o) m =
      ⟨(Stmt.execAlternativeTested limit (arms rest o) m).result,
        before.flatMap (·.tests m.vars) ++ (Stmt.execAlternativeTested limit (arms rest o) m).tests⟩ := by
  induction before with
  | nil => rfl
  | cons a before ih =>
    obtain ⟨ha, hbefore⟩ := List.forall_mem_cons.mp h
    show (a.arm (arms (before ++ rest) o)).execTested limit m = _
    rw [Branch.execTested_arm, ha, ih hbefore, List.flatMap_cons, List.append_assoc]

namespace Cascade

variable (m)

theorem execTested_program (ch : Cascade) : ch.program.execTested limit m =
    Stmt.execAlternativeTested limit (arms ch.branches ch.alternative) m :=
  Program.execTested_block limit m ch.tree

theorem execTested_nestedProgram (ch : Cascade) :
    ch.nestedProgram.execTested limit m = ch.program.execTested limit m := by
  rw [program, nestedProgram, Program.execTested_block, Program.execTested_block, tree, nestedTree,
    Branch.execTested_arm, Branch.execTested_arm, execTested_nested]

end Cascade

end

/-- A conditional of many arms, with one word at the end or with one for each, is read with each arm in
the place of the alternative of the one before. A run of it tests the conditions in order, all with the
variables of its beginning, up to one that fails, and then nothing has changed, or to one that holds, and
then only the body of that arm is run. If none holds it is the alternative that is run, or nothing. -/
theorem Program.exec_cascade (ch : Cascade) :
    (∀ source, answersOf source.toList = ch.tokens.map .ok → ofSource source = .ok ch.program) ∧
    (∀ source, answersOf source.toList = ch.nestedTokens.map .ok → ofSource source = .ok ch.nestedProgram) ∧
    ∀ {σ : Type} [Sink σ] (limit : Nat) (m : Machine σ),
      ch.nestedProgram.exec limit m = ch.program.exec limit m ∧
      ch.program.exec limit m = (ch.program.execTested limit m).result ∧
      (∀ before b after, ch.branches = before ++ b :: after →
        (∀ a ∈ before, a.condition.holds m.vars = .ok false) →
          (∀ f, b.condition.holds m.vars = .error f → ch.program.execTested limit m =
            ⟨some ⟨m, some f⟩, (before ++ [b]).flatMap (·.tests m.vars)⟩) ∧
          (b.condition.holds m.vars = .ok true → ch.program.execTested limit m =
            ⟨b.body.exec limit m,
              (before ++ [b]).flatMap (·.tests m.vars) ++ (b.body.execTested limit m).tests⟩)) ∧
      ((∀ a ∈ ch.branches, a.condition.holds m.vars = .ok false) → ch.program.execTested limit m =
        ⟨Stmt.execAlternative limit ch.alternative m,
          ch.branches.flatMap (·.tests m.vars) ++
            (Stmt.execAlternativeTested limit ch.alternative m).tests⟩) := by
  refine ⟨fun source h => ofSource_of_statement h ch.statement_tree,
    fun source h => ofSource_of_statement h ch.statement_nestedTree, fun limit m => ⟨?_, ?_, ?_, ?_⟩⟩
  · rw [exec, exec, ← result_execAll, ← result_execAll]
    exact congrArg Tested.result (ch.execTested_nestedProgram limit m)
  · exact (result_execAll limit _ m).symm
  · intro before b after hbranches hbefore
    have tests : (before ++ [b]).flatMap (·.tests m.vars) =
        before.flatMap (·.tests m.vars) ++ b.tests m.vars := by
      rw [List.flatMap_append, List.flatMap_singleton]
    have reached : Stmt.execAlternativeTested limit (arms (b :: after) ch.alternative) m =
        (b.arm (arms after ch.alternative)).execTested limit m := rfl
    rw [ch.execTested_program, hbranches, execTested_passed limit hbefore, reached,
      Branch.execTested_arm, tests]
    refine ⟨fun f h => ?_, fun h => ?_⟩
    · rw [h]
      rfl
    · rw [h, ← result_exec, List.append_assoc]
  · intro hbranches
    rw [ch.execTested_program, ← List.append_nil ch.branches, execTested_passed limit hbranches,
      List.append_nil, ← result_execAlternative]
    rfl

/-- The body of the second arm makes the condition of the first one true. -/
theorem Program.exec_cascade_second : ∃ ch : Cascade,
    ofSource "IF a < b THEN HOME ELSIF a = b THEN b := 1 ELSE PENUP FI" = .ok ch.program ∧
    ofSource "IF a < b THEN HOME ELSE IF a = b THEN b := 1 ELSE PENUP FI FI" = .ok ch.nestedProgram ∧
    ch.program.execTested 0 ⟨⟨.empty, .default .zero⟩, (#[] : Array Command)⟩ =
      ⟨some ⟨⟨(Variables.mk .empty (.default .zero)).put "b" .one, #[]⟩, none⟩, [.zero, .one]⟩ := by
  have name (x : String) : Phrase .expr [.identifier x] (.variable x) := .operand rfl (.operand rfl .name)
  have condition (op : Operator) (h : op.isRelational = true) : Phrase .bool
      [.identifier "a", op.token, .identifier "b"] (.binary op (.variable "a") (.variable "b")) :=
    .operand rfl (.operand rfl (.comparison (by simp) (.compared h (name "a") (name "b"))))
  let first : Branch := ⟨_, _, _, _, condition .less rfl, .block (.one (.action (a := .home)))⟩
  let second : Branch := ⟨_, _, _, _, condition .equal rfl,
    .block (.one (.assign (x := "b") (.operand rfl (.operand rfl (.number (v := .one))))))⟩
  let last : Fallback := ⟨_, _, .block (.one (.action (a := .penUp)))⟩
  have answers : answersOf "IF a < b THEN HOME ELSIF a = b THEN b := 1 ELSE PENUP FI".toList =
      [.keyword .if, .identifier "a", .symbol .less, .identifier "b", .keyword .then, .keyword .home,
        .keyword .elsif, .identifier "a", .symbol .equal, .identifier "b", .keyword .then,
        .identifier "b", .symbol .assign, .real .one,
        .keyword .else, .keyword .penUp, .keyword .fi].map .ok := by decide +kernel
  have nestedAnswers : answersOf "IF a < b THEN HOME ELSE IF a = b THEN b := 1 ELSE PENUP FI FI".toList =
      [.keyword .if, .identifier "a", .symbol .less, .identifier "b", .keyword .then, .keyword .home,
        .keyword .else, .keyword .if, .identifier "a", .symbol .equal, .identifier "b", .keyword .then,
        .identifier "b", .symbol .assign, .real .one,
        .keyword .else, .keyword .penUp, .keyword .fi, .keyword .fi].map .ok := by decide +kernel
  obtain ⟨read, nested, run⟩ := exec_cascade ⟨first, [second], some last⟩
  refine ⟨⟨first, [second], some last⟩, read _ answers, nested _ nestedAnswers, ?_⟩
  refine ((run 0 ⟨⟨.empty, .default .zero⟩, #[]⟩).2.2.1 [first] second [] rfl ?_).2 ?_
  · exact List.forall_mem_singleton.mpr rfl
  · rfl

end Turtle
