import Turtle.Execution

/-!
# The names of a program

A run asks for no names but those in the program and binds none but those that the program assigns.
Variables that answer alike for the names in it, be it by a binding or by the policy, lead to the same
run (`exec_alike`), and what is no target of an assignment is as it was, wherever the run ends
(`exec_keeps`).
-/

namespace Turtle

/-! ## Names -/

def Expr.names : Expr → List String
  | .variable x => [x]
  | .constant _ => []
  | .negate e | .not e => e.names
  | .binary _ l r => l.names ++ r.names

namespace Stmt

mutual

/-- The names that are read or assigned. -/
def names : Stmt → List String
  | .assign x e => x :: e.names
  | .block body => namesOfAll body
  | .while c body => c.names ++ body.names
  | .conditional c body other => c.names ++ (body.names ++ namesOfAlternative other)
  | .action _ => []
  | .motion _ e => e.names

def namesOfAll : List Stmt → List String
  | [] => []
  | s :: ss => s.names ++ namesOfAll ss

def namesOfAlternative : Option Stmt → List String
  | none => []
  | some s => s.names

end

mutual

def targets : Stmt → List String
  | .assign x _ => [x]
  | .block body => targetsOfAll body
  | .while _ body => body.targets
  | .conditional _ body other => body.targets ++ targetsOfAlternative other
  | .action _ | .motion _ _ => []

def targetsOfAll : List Stmt → List String
  | [] => []
  | s :: ss => s.targets ++ targetsOfAll ss

def targetsOfAlternative : Option Stmt → List String
  | none => []
  | some s => s.targets

end

end Stmt

namespace Program

def names (p : Program) : List String := Stmt.namesOfAll p.statements

def targets (p : Program) : List String := Stmt.targetsOfAll p.statements

end Program

/-! ## Runs from variables that answer alike -/

theorem Expr.eval_congr {vars vars' : Variables} (e : Expr) (h : ∀ x ∈ e.names, vars.get x = vars'.get x) :
    e.eval vars = e.eval vars' := by
  induction e with
  | «variable» x => exact h x List.mem_cons_self
  | constant v => rfl
  | negate e ih | not e ih => rw [eval, eval, ih h]
  | binary op l r ihl ihr =>
    obtain ⟨hl, hr⟩ := List.forall_mem_append.mp h
    cases op <;> simp only [eval, ihl hl, ihr hr]

variable {σ : Type} {names targets : List String}

structure Machine.Alike (names : List String) (m m' : Machine σ) : Prop where
  sink : m.sink = m'.sink
  get : ∀ x ∈ names, m.vars.get x = m'.vars.get x

structure Ending.Alike (names : List String) (e e' : Ending σ) : Prop where
  machine : e.machine.Alike names e'.machine
  failure : e.failure = e'.failure

namespace Machine.Alike

variable {m m' : Machine σ} (h : m.Alike names m')
include h

theorem eval {e : Expr} (he : e.names ⊆ names) : e.eval m.vars = e.eval m'.vars :=
  e.eval_congr fun x hx => h.get x (he hx)

theorem holds {e : Expr} (he : e.names ⊆ names) : e.holds m.vars = e.holds m'.vars := by
  rw [Expr.holds, Expr.holds, h.eval he]

theorem put (x : String) (v : Number) :
    Alike names { m with vars := m.vars.put x v } { m' with vars := m'.vars.put x v } := by
  refine ⟨h.sink, fun y hy => ?_⟩
  rw [Variables.get_put, Variables.get_put, h.get y hy]

theorem pass [Sink σ] (n : Nat) : (m.pass n).Alike names (m'.pass n) := ⟨congrArg (Sink.pass n) h.sink, h.get⟩

theorem emit [Sink σ] (c : Command) : (m.emit c).Alike names (m'.emit c) := by
  rw [Machine.emit, Machine.emit, h.sink]
  exact ⟨⟨rfl, h.get⟩, rfl⟩

end Machine.Alike

theorem alike_cases {o o' : Option (Ending σ)} (h : Option.Rel (Ending.Alike names) o o') :
    (o = none ∧ o' = none) ∨ ∃ m m' r, m.Alike names m' ∧ o = some ⟨m, r⟩ ∧ o' = some ⟨m', r⟩ := by
  cases h with
  | none => exact .inl ⟨rfl, rfl⟩
  | @some e e' he =>
    obtain ⟨m, r⟩ := e
    obtain ⟨m', r'⟩ := e'
    obtain ⟨hm, rfl⟩ := he
    exact .inr ⟨m, m', r, hm, rfl, rfl⟩

theorem exists_alike {o o' : Option (Ending σ)} (h : Option.Rel (Ending.Alike names) o o')
    {vars : Variables} {sink : σ} {r : Option Failure} (ho : o = some ⟨⟨vars, sink⟩, r⟩) :
    ∃ vars', o' = some ⟨⟨vars', sink⟩, r⟩ := by
  rcases alike_cases h with ⟨hn, -⟩ | ⟨_, ⟨vars', _⟩, _, ⟨rfl, -⟩, he, he'⟩
  · cases ho.symm.trans hn
  · cases ho.symm.trans he
    exact ⟨vars', he'⟩

variable [Sink σ]

theorem iterate_alike {test : Machine σ → Except Failure Bool} {body : Machine σ → Option (Ending σ)}
    (ht : ∀ m m', m.Alike names m' → test m = test m')
    (hb : ∀ m m', m.Alike names m' → Option.Rel (Ending.Alike names) (body m) (body m')) (limit count : Nat)
    {m m' : Machine σ} (h : m.Alike names m') :
    Option.Rel (Ending.Alike names) (iterate test body limit count m) (iterate test body limit count m') := by
  induction limit generalizing count m m' with
  | zero => exact .none
  | succ limit ih =>
    unfold iterate
    rw [ht m m' h]
    cases test m' with
    | error f => exact .some ⟨h, rfl⟩
    | ok b =>
      cases b with
      | false => exact .some ⟨h, rfl⟩
      | true =>
        dsimp only
        rcases alike_cases (hb _ _ (h.pass (count + 1))) with ⟨hn, hn'⟩ | ⟨m₁, m₁', r, hm, he, he'⟩
        · rw [hn, hn']
          exact .none
        · rw [he, he']
          cases r with
          | some f => exact .some ⟨hm, rfl⟩
          | none => exact ih (count + 1) hm

mutual

theorem exec_alike (limit : Nat) (s : Stmt) (hs : s.names ⊆ names) {m m' : Machine σ} (h : m.Alike names m') :
    Option.Rel (Ending.Alike names) (s.exec limit m) (s.exec limit m') := by
  match s with
  | .assign x e =>
    unfold Stmt.exec
    rw [h.eval (List.cons_subset.mp hs).2]
    cases e.eval m'.vars with
    | error f => exact .some ⟨h, rfl⟩
    | ok v => exact .some ⟨h.put x v, rfl⟩
  | .block ss => exact execAll_alike limit ss hs h
  | .while c s =>
    obtain ⟨hc, hs⟩ := List.append_subset.mp hs
    exact iterate_alike (fun _ _ h => h.holds hc) (fun _ _ => exec_alike limit s hs) limit 0 h
  | .conditional c s o =>
    obtain ⟨hc, hs⟩ := List.append_subset.mp hs
    obtain ⟨hs, ho⟩ := List.append_subset.mp hs
    unfold Stmt.exec
    rw [h.holds hc]
    match c.holds m'.vars with
    | .error f => exact .some ⟨h, rfl⟩
    | .ok true => exact exec_alike limit s hs h
    | .ok false => exact execAlternative_alike limit o ho h
  | .action a => exact .some (h.emit a.command)
  | .motion k e =>
    unfold Stmt.exec
    rw [h.eval hs]
    cases e.eval m'.vars with
    | error f => exact .some ⟨h, rfl⟩
    | ok v => exact .some (h.emit (k.command v))

theorem execAll_alike (limit : Nat) (ss : List Stmt) (hs : Stmt.namesOfAll ss ⊆ names) {m m' : Machine σ}
    (h : m.Alike names m') :
    Option.Rel (Ending.Alike names) (Stmt.execAll limit ss m) (Stmt.execAll limit ss m') := by
  match ss with
  | [] => exact .some ⟨h, rfl⟩
  | s :: ss =>
    obtain ⟨hs, hss⟩ := List.append_subset.mp hs
    unfold Stmt.execAll
    rcases alike_cases (exec_alike limit s hs h) with ⟨hn, hn'⟩ | ⟨m₁, m₁', r, hm, he, he'⟩
    · rw [hn, hn']
      exact .none
    · rw [he, he']
      cases r with
      | some f => exact .some ⟨hm, rfl⟩
      | none => exact execAll_alike limit ss hss hm

theorem execAlternative_alike (limit : Nat) (o : Option Stmt) (hs : Stmt.namesOfAlternative o ⊆ names)
    {m m' : Machine σ} (h : m.Alike names m') :
    Option.Rel (Ending.Alike names) (Stmt.execAlternative limit o m) (Stmt.execAlternative limit o m') := by
  match o with
  | none => exact .some ⟨h, rfl⟩
  | some s => exact exec_alike limit s hs h

end

/-! ## What a run leaves as it is -/

namespace Variables

structure Keeps (targets : List String) (vars vars' : Variables) : Prop where
  policy : vars'.policy = vars.policy
  other : ∀ x, x ∉ targets → vars'.lookup x = vars.lookup x
  bound : ∀ x, vars.lookup x ≠ none → vars'.lookup x ≠ none

namespace Keeps

variable {vars vars' vars'' : Variables}

theorem refl (targets : List String) (vars : Variables) : Keeps targets vars vars :=
  ⟨rfl, fun _ _ => rfl, fun _ => id⟩

theorem trans (h : Keeps targets vars vars') (h' : Keeps targets vars' vars'') : Keeps targets vars vars'' :=
  ⟨h'.policy.trans h.policy, fun x hx => (h'.other x hx).trans (h.other x hx),
    fun x hx => h'.bound x (h.bound x hx)⟩

theorem put {x : String} (hx : x ∈ targets) (v : Number) : Keeps targets vars (vars.put x v) := by
  refine ⟨rfl, fun y hy => ?_, fun y hy => ?_⟩
  · rw [lookup_put, if_neg]
    rintro rfl
    exact hy hx
  · rw [lookup_put]
    split
    · nofun
    · exact hy

end Keeps

end Variables

theorem iterate_keeps {test : Machine σ → Except Failure Bool} {body : Machine σ → Option (Ending σ)}
    (hb : ∀ m e, body m = some e → m.vars.Keeps targets e.machine.vars) {limit count : Nat} {m : Machine σ}
    {e : Ending σ} (he : iterate test body limit count m = some e) : m.vars.Keeps targets e.machine.vars := by
  induction limit generalizing count m with
  | zero => cases he
  | succ limit ih =>
    unfold iterate at he
    split at he
    · cases he
      exact .refl _ _
    · cases he
      exact .refl _ _
    · split at he
      · cases he
      · rename_i hm
        cases he
        exact hb (m.pass (count + 1)) _ hm
      · rename_i hm
        exact (hb (m.pass (count + 1)) _ hm).trans (ih he)

mutual

theorem exec_keeps {limit : Nat} (s : Stmt) (hs : s.targets ⊆ targets) {m : Machine σ} {e : Ending σ}
    (he : s.exec limit m = some e) : m.vars.Keeps targets e.machine.vars := by
  match s with
  | .assign x v =>
    unfold Stmt.exec at he
    split at he <;> cases he
    · exact .put (hs List.mem_cons_self) _
    · exact .refl _ _
  | .block ss => exact execAll_keeps ss hs he
  | .while c s => exact iterate_keeps (fun _ _ => exec_keeps s hs) he
  | .conditional c s o =>
    obtain ⟨hs, ho⟩ := List.append_subset.mp hs
    unfold Stmt.exec at he
    split at he
    · exact exec_keeps s hs he
    · exact execAlternative_keeps o ho he
    · cases he
      exact .refl _ _
  | .action a =>
    cases he
    exact .refl _ _
  | .motion k v =>
    unfold Stmt.exec at he
    split at he <;> cases he <;> exact .refl _ _

theorem execAll_keeps {limit : Nat} (ss : List Stmt) (hs : Stmt.targetsOfAll ss ⊆ targets) {m : Machine σ}
    {e : Ending σ} (he : Stmt.execAll limit ss m = some e) : m.vars.Keeps targets e.machine.vars := by
  match ss with
  | [] =>
    cases he
    exact .refl _ _
  | s :: ss =>
    obtain ⟨hs, hss⟩ := List.append_subset.mp hs
    unfold Stmt.execAll at he
    split at he
    · cases he
    · rename_i e₁ h₁
      have first := exec_keeps s hs h₁
      obtain ⟨m₁, r₁⟩ := e₁
      cases r₁ with
      | some f =>
        cases he
        exact first
      | none => exact first.trans (execAll_keeps ss hss he)

theorem execAlternative_keeps {limit : Nat} (o : Option Stmt) (hs : Stmt.targetsOfAlternative o ⊆ targets)
    {m : Machine σ} {e : Ending σ} (he : Stmt.execAlternative limit o m = some e) :
    m.vars.Keeps targets e.machine.vars := by
  match o with
  | none =>
    cases he
    exact .refl _ _
  | some s => exact exec_keeps s hs he

end

/-! ## Programs -/

namespace Variables

def fill (v : Number) (vars : Variables) : List String → Variables
  | [] => vars
  | x :: xs => fill v (if vars.lookup x = none then vars.put x v else vars) xs

theorem lookup_fill (v : Number) (vars : Variables) (xs : List String) (y : String) :
    (fill v vars xs).lookup y = (vars.lookup y).or (if y ∈ xs then some v else none) := by
  induction xs generalizing vars with
  | nil => rw [fill, if_neg List.not_mem_nil, Option.or_none]
  | cons x xs ih =>
    rw [fill, ih]
    by_cases hy : y = x
    · subst hy
      rw [if_pos List.mem_cons_self]
      cases h : vars.lookup y with
      | none => rw [if_pos rfl, lookup_put, if_pos rfl, Option.some_or, Option.none_or]
      | some w => rw [if_neg nofun, h, Option.some_or, Option.some_or]
    · have other : (if vars.lookup x = none then vars.put x v else vars).lookup y = vars.lookup y := by
        split
        · rw [lookup_put, if_neg hy]
        · rfl
      rw [other]
      simp only [List.mem_cons, hy, false_or]

/-- To read a default is to read what the name is bound to first. -/
theorem get_fill {vars : Variables} {v : Number} (h : vars.policy = .default v)
    {xs : List String} {x : String} (hx : x ∈ xs) :
    vars.get x = (fill v { vars with policy := .reject } xs).get x := by
  have filled : (fill v { vars with policy := .reject } xs).lookup x = (vars.lookup x).or (some v) := by
    rw [lookup_fill, if_pos hx]
    rfl
  rw [get, get, filled, h]
  cases vars.lookup x <;> rfl

end Variables

namespace Program

/-- A run depends on nothing but what the variables answer for the names in the program, and these answers
are the same again at its end. It binds only the names that the program assigns, and never changes the
policy. A default for unbound names does what it does to bind those of the program to it first. -/
theorem exec_of_names (p : Program) (limit : Nat) (m : Machine σ) :
    (∀ m', m.Alike p.names m' → Option.Rel (Ending.Alike p.names) (p.exec limit m) (p.exec limit m')) ∧
    (∀ e, p.exec limit m = some e → m.vars.Keeps p.targets e.machine.vars) ∧
    ∀ v, m.vars.policy = .default v → Option.Rel (Ending.Alike p.names) (p.exec limit m)
      (p.exec limit ⟨.fill v { m.vars with policy := .reject } p.names, m.sink⟩) := by
  have alike : ∀ m', m.Alike p.names m' →
      Option.Rel (Ending.Alike p.names) (p.exec limit m) (p.exec limit m') :=
    fun m' h => execAll_alike limit p.statements (List.Subset.refl _) h
  refine ⟨alike, fun e he => ?_, fun v hv => ?_⟩
  · exact execAll_keeps p.statements (List.Subset.refl _) he
  · exact alike _ ⟨rfl, fun x hx => Variables.get_fill hv hx⟩

/-- A name that is zero by default fails as a divisor like one that is bound to zero. A name of no part
in the program keeps its number, also in a run that fails. -/
theorem exec_of_names_divisor :
    (∃ vars, (⟨[.motion .left (.variable "b"),
      .assign "b" (.binary .div (.variable "b") (.variable "c"))]⟩ : Program).exec 0
        ⟨⟨.ofList [("c", .zero), ("b", .one), ("d", .one)], .reject⟩, (#[] : Array Command)⟩ =
      some ⟨⟨vars, #[.rotate .one]⟩, some .divisionByZero⟩ ∧ vars.lookup "d" = some .one) ∧
    ∃ vars, (⟨[.motion .left (.variable "b"),
      .assign "b" (.binary .div (.variable "b") (.variable "c"))]⟩ : Program).exec 0
        ⟨.fill .zero ⟨.ofList [("b", .one)], .reject⟩ ["b", "b", "b", "c"], (#[] : Array Command)⟩ =
      some ⟨⟨vars, #[.rotate .one]⟩, some .divisionByZero⟩ := by
  let p : Program := ⟨[.motion .left (.variable "b"),
    .assign "b" (.binary .div (.variable "b") (.variable "c"))]⟩
  let m : Machine (Array Command) := ⟨⟨.ofList [("b", .one)], .default .zero⟩, #[]⟩
  let m' : Machine (Array Command) := ⟨⟨.ofList [("c", .zero), ("b", .one), ("d", .one)], .reject⟩, #[]⟩
  have run : p.exec 0 m = some ⟨⟨m.vars, #[.rotate .one]⟩, some .divisionByZero⟩ := rfl
  have alike : m.Alike p.names m' := by
    refine ⟨rfl, fun x hx => ?_⟩
    simp only [p, names, Stmt.namesOfAll, Stmt.names, Expr.names, List.cons_append, List.nil_append,
      List.mem_cons, List.not_mem_nil, or_false] at hx
    rcases hx with rfl | rfl | rfl | rfl <;> rfl
  obtain ⟨same, -, filled⟩ := exec_of_names p 0 m
  obtain ⟨vars, ran⟩ := exists_alike (same m' alike) run
  exact ⟨⟨vars, ran, ((exec_of_names p 0 m').2.1 _ ran).other "d" (by decide)⟩,
    exists_alike (filled .zero rfl) run⟩

end Program

end Turtle
