import Turtle.Proofs.Execution.Names

/-!
# Why runs fail

The failure of a run is told by what stands in the program and by the machine that it leaves behind: a
name that is read and not bound, a division, or an attempt that the sink has refused. There is no other
cause, so that an operator is never applied to what it is not made for.
-/

namespace Turtle

/-! ## What stands in a program -/

def Expr.operators : Expr → List Operator
  | .variable _ | .constant _ => []
  | .negate e | .not e => e.operators
  | .binary op l r => op :: (l.operators ++ r.operators)

namespace Stmt

mutual

def exprs : Stmt → List Expr
  | .assign _ e | .motion _ e => [e]
  | .block body => exprsOfAll body
  | .while c body => c :: body.exprs
  | .conditional c body other => c :: (body.exprs ++ exprsOfAlternative other)
  | .action _ => []

def exprsOfAll : List Stmt → List Expr
  | [] => []
  | s :: ss => s.exprs ++ exprsOfAll ss

def exprsOfAlternative : Option Stmt → List Expr
  | none => []
  | some s => s.exprs

end

end Stmt

namespace Program

def exprs (p : Program) : List Expr := Stmt.exprsOfAll p.statements

def reads (p : Program) : List String := p.exprs.flatMap Expr.names

def operators (p : Program) : List Operator := p.exprs.flatMap Expr.operators

end Program

/-! ## Evaluations that fail -/

/-- The expression accounts for the failure under these variables. -/
inductive Failure.ArisesIn (vars : Variables) (e : Expr) : Failure → Prop
  | unknown {x : String} (hp : vars.policy = .reject) (hx : x ∈ e.names) (hl : vars.lookup x = none) :
    ArisesIn vars e (.unknownVariable x)
  | division (h : .div ∈ e.operators) : ArisesIn vars e .divisionByZero

theorem Failure.ArisesIn.mono {vars : Variables} {e e' : Expr} {f : Failure} (h : f.ArisesIn vars e)
    (hn : e.names ⊆ e'.names) (ho : e.operators ⊆ e'.operators) : f.ArisesIn vars e' := by
  cases h with
  | unknown hp hx hl => exact .unknown hp (hn hx) hl
  | division h => exact .division (ho h)

theorem error_of_bind {α β : Type} {r : Except Failure α} {g : α → Except Failure β} {f : Failure}
    (h : r >>= g = .error f) : r = .error f ∨ ∃ a, g a = .error f := by
  cases r with
  | error f' =>
    cases h
    exact .inl rfl
  | ok a => exact .inr ⟨a, h⟩

theorem Variables.policy_of_get {vars : Variables} {x : String} {f : Failure} (h : vars.get x = .error f) :
    f = .unknownVariable x ∧ vars.policy = .reject ∧ vars.lookup x = none := by
  unfold get at h
  split at h <;> cases h
  exact ⟨rfl, ‹_›, ‹_›⟩

theorem Operator.eq_div_of_apply {op : Operator} {left right : Number} {f : Failure}
    (ho : op ≠ .and ∧ op ≠ .or)
    (h : (if op.isArithmetic then op.arithmetic left right else op.comparison left right) = .error f) :
    op = .div ∧ f = .divisionByZero := by
  cases op with
  | and | or => simp at ho
  | div =>
    have h : (if right == Number.zero then .error .divisionByZero else .ok (left / right)) =
        Except.error f := h
    split at h <;> cases h
    exact ⟨rfl, rfl⟩
  | _ => cases h

namespace Expr

variable {vars : Variables} {f : Failure}

theorem arises_of_left {op : Operator} {l : Expr} (r : Expr) (h : f.ArisesIn vars l) :
    f.ArisesIn vars (.binary op l r) :=
  h.mono (List.subset_append_left ..) (List.subset_cons_of_subset _ (List.subset_append_left ..))

theorem arises_of_right {op : Operator} (l : Expr) {r : Expr} (h : f.ArisesIn vars r) :
    f.ArisesIn vars (.binary op l r) :=
  h.mono (List.subset_append_right ..) (List.subset_cons_of_subset _ (List.subset_append_right ..))

theorem arises_of_eval {e : Expr} (h : e.eval vars = .error f) : f.ArisesIn vars e := by
  induction e with
  | «variable» x =>
    obtain ⟨rfl, hp, hl⟩ := Variables.policy_of_get h
    exact .unknown hp List.mem_cons_self hl
  | constant v => cases h
  | negate e ih | not e ih =>
    rcases error_of_bind h with h | ⟨a, h⟩
    · exact (ih h).mono (List.Subset.refl _) (List.Subset.refl _)
    · cases h
  | binary op l r ihl ihr =>
    cases op with
    | and =>
      rcases error_of_bind h with h | ⟨a, h⟩
      · exact arises_of_left r (ihl h)
      · split at h
        · rcases error_of_bind h with h | ⟨b, h⟩
          · exact arises_of_right l (ihr h)
          · cases h
        · cases h
    | or =>
      rcases error_of_bind h with h | ⟨a, h⟩
      · exact arises_of_left r (ihl h)
      · split at h
        · cases h
        · rcases error_of_bind h with h | ⟨b, h⟩
          · exact arises_of_right l (ihr h)
          · cases h
    -- here the right side is evaluated whatever the left one is
    | _ =>
      rcases error_of_bind h with h | ⟨a, h⟩
      · exact arises_of_left r (ihl h)
      · rcases error_of_bind h with h | ⟨b, h⟩
        · exact arises_of_right l (ihr h)
        · obtain ⟨ho, rfl⟩ := Operator.eq_div_of_apply (by simp) h
          exact .division (ho ▸ List.mem_cons_self)

theorem arises_of_holds {e : Expr} (h : e.holds vars = .error f) : f.ArisesIn vars e := by
  rcases error_of_bind h with h | ⟨a, h⟩
  · exact arises_of_eval h
  · cases h

end Expr

/-! ## Runs that fail -/

section
variable {σ : Type} [Sink σ] {es : List Expr}

/-- One of the expressions accounts for the failure, or the last attempt at the sink does. -/
inductive Failure.Explained (es : List Expr) (m : Machine σ) : Failure → Prop
  | evaluated {f : Failure} {e : Expr} (he : e ∈ es) (h : f.ArisesIn m.vars e) : Explained es m f
  | refused {c : Command} {s : σ} {d : String} (h : Sink.emit c s = (m.sink, some d)) :
      Explained es m (.output d)

def Ending.Explained (es : List Expr) (e : Ending σ) : Prop :=
  ∀ f, e.failure = some f → f.Explained es e.machine

namespace Ending.Explained

theorem succeed (m : Machine σ) : m.succeed.Explained es := nofun

theorem fail {m : Machine σ} {f : Failure} {e : Expr} (he : e ∈ es) (h : f.ArisesIn m.vars e) :
    (m.fail f).Explained es := by
  intro f' hf
  cases hf
  exact .evaluated he h

theorem emit (m : Machine σ) (c : Command) : (m.emit c).Explained es := by
  intro f hf
  obtain ⟨d, hd, rfl⟩ := Option.map_eq_some_iff.mp hf
  exact .refused (Prod.ext rfl hd)

end Ending.Explained

theorem explained_of_iterate {c : Expr} (hc : c ∈ es) {body : Machine σ → Option (Ending σ)}
    (hb : ∀ m e, body m = some e → e.Explained es) {limit count : Nat} {m : Machine σ} {e : Ending σ}
    (he : iterate (fun m => c.holds m.vars) body limit count m = some e) : e.Explained es := by
  induction limit generalizing count m with
  | zero => cases he
  | succ limit ih =>
    unfold iterate at he
    split at he
    · rename_i f hf
      cases he
      exact .fail hc (Expr.arises_of_holds hf)
    · cases he
      exact .succeed _
    · split at he
      · cases he
      · rename_i hm
        cases he
        exact hb _ _ hm
      · exact ih he

mutual

theorem explained_of_exec {limit : Nat} (s : Stmt) (hs : s.exprs ⊆ es) {m : Machine σ} {e : Ending σ}
    (he : s.exec limit m = some e) : e.Explained es := by
  match s with
  | .assign x v =>
    unfold Stmt.exec at he
    split at he <;> cases he
    · exact .succeed _
    · exact .fail (hs List.mem_cons_self) (Expr.arises_of_eval ‹_›)
  | .block ss => exact explained_of_execAll ss hs he
  | .while c s =>
    obtain ⟨hc, hs⟩ := List.cons_subset.mp hs
    exact explained_of_iterate hc (fun _ _ => explained_of_exec s hs) he
  | .conditional c s o =>
    obtain ⟨hc, hs⟩ := List.cons_subset.mp hs
    obtain ⟨hs, ho⟩ := List.append_subset.mp hs
    unfold Stmt.exec at he
    split at he
    · exact explained_of_exec s hs he
    · exact explained_of_execAlternative o ho he
    · cases he
      exact .fail hc (Expr.arises_of_holds ‹_›)
  | .action a =>
    cases he
    exact .emit m a.command
  | .motion k v =>
    unfold Stmt.exec at he
    split at he <;> cases he
    · exact .emit m _
    · exact .fail (hs List.mem_cons_self) (Expr.arises_of_eval ‹_›)

theorem explained_of_execAll {limit : Nat} (ss : List Stmt) (hs : Stmt.exprsOfAll ss ⊆ es) {m : Machine σ}
    {e : Ending σ} (he : Stmt.execAll limit ss m = some e) : e.Explained es := by
  match ss with
  | [] =>
    cases he
    exact .succeed _
  | s :: ss =>
    obtain ⟨hs, hss⟩ := List.append_subset.mp hs
    unfold Stmt.execAll at he
    split at he
    · cases he
    · rename_i e₁ h₁
      obtain ⟨m₁, r₁⟩ := e₁
      cases r₁ with
      | some f =>
        cases he
        exact explained_of_exec s hs h₁
      | none => exact explained_of_execAll ss hss he

theorem explained_of_execAlternative {limit : Nat} (o : Option Stmt) (hs : Stmt.exprsOfAlternative o ⊆ es)
    {m : Machine σ} {e : Ending σ} (he : Stmt.execAlternative limit o m = some e) : e.Explained es := by
  match o with
  | none =>
    cases he
    exact .succeed _
  | some s => exact explained_of_exec s hs he

end

end

/-! ## Programs -/

namespace Program

variable {σ : Type} [Sink σ]

section
variable {p : Program} {limit : Nat} {m : Machine σ} {e : Ending σ} (h : p.exec limit m = some e)
include h

theorem explained_of_exec : e.Explained p.exprs := explained_of_execAll p.statements (List.Subset.refl _) h

theorem unbound_of_exec :
    e.machine.vars.policy = m.vars.policy ∧ ∀ x, e.machine.vars.lookup x = none → m.vars.lookup x = none := by
  have keeps := execAll_keeps p.statements (List.Subset.refl _) h
  exact ⟨keeps.policy, fun x hx => Decidable.by_contra fun hn => keeps.bound x hn hx⟩

theorem unknown_of_exec {x : String} (hf : e.failure = some (.unknownVariable x)) :
    e.machine.vars.policy = .reject ∧ x ∈ p.reads ∧ e.machine.vars.lookup x = none := by
  cases explained_of_exec h _ hf with
  | evaluated he ha =>
    cases ha with
    | unknown hp hx hl => exact ⟨hp, List.mem_flatMap_of_mem he hx, hl⟩

theorem division_of_exec (hf : e.failure = some .divisionByZero) : .div ∈ p.operators := by
  cases explained_of_exec h _ hf with
  | evaluated he ha =>
    cases ha with
    | division ho => exact List.mem_flatMap_of_mem he ho

theorem refused_of_exec {d : String} (hf : e.failure = some (.output d)) :
    ∃ c s, Sink.emit c s = (e.machine.sink, some d) := by
  cases explained_of_exec h _ hf with
  | evaluated _ ha => cases ha
  | refused hs => exact ⟨_, _, hs⟩

theorem not_misapplied (sort : OperatorSort) : e.failure ≠ some (.misapplied sort) := by
  intro hf
  cases explained_of_exec h _ hf with
  | evaluated _ ha => cases ha

end

theorem not_output {p : Program} {limit : Nat} {m : Machine (Array Command)} {e : Ending (Array Command)}
    (h : p.exec limit m = some e) (d : String) : e.failure ≠ some (.output d) := by
  intro hf
  obtain ⟨c, s, hs⟩ := refused_of_exec h hf
  have hs : none = some d := congrArg Prod.snd hs
  cases hs

/-- A run that fails by an unknown name reads it in the program, refuses unbound names and has not bound
it from the start to the end; one that fails by a division has a division in the program; and one that
fails by an output was refused in its last attempt at the sink. So a run into a list of commands that
divides by nothing succeeds if all that the program reads is bound at first, or if unbound names have a
default. No operator is misapplied. -/
theorem exec_failure (p : Program) (limit : Nat) :
    (∀ {σ : Type} [Sink σ] (m : Machine σ) (e : Ending σ), p.exec limit m = some e →
      (∀ sort, e.failure ≠ some (.misapplied sort)) ∧
      (∀ x, e.failure = some (.unknownVariable x) → m.vars.policy = .reject ∧ x ∈ p.reads ∧
        m.vars.lookup x = none ∧ e.machine.vars.lookup x = none) ∧
      (e.failure = some .divisionByZero → .div ∈ p.operators) ∧
      ∀ d, e.failure = some (.output d) → ∃ c s, Sink.emit c s = (e.machine.sink, some d)) ∧
    (∀ (m : Machine (Array Command)) (e : Ending (Array Command)), p.exec limit m = some e →
      (∀ d, e.failure ≠ some (.output d)) ∧
      (.div ∉ p.operators → ((∃ v, m.vars.policy = .default v) ∨ ∀ x ∈ p.reads, m.vars.lookup x ≠ none) →
        e.failure = none)) ∧
    ∀ (vars : Variables) (e : Expr) (sort : OperatorSort), e.eval vars ≠ .error (.misapplied sort) := by
  refine ⟨fun m e h => ⟨fun sort hf => ?_, fun x hf => ?_, fun hf => ?_, fun d hf => ?_⟩,
    fun m e h => ⟨not_output h, fun hdiv known => ?_⟩, fun vars e sort hf => ?_⟩
  · exact not_misapplied h sort hf
  · obtain ⟨hp, hx, hl⟩ := unknown_of_exec h hf
    obtain ⟨policy, unbound⟩ := unbound_of_exec h
    exact ⟨policy ▸ hp, hx, unbound x hl, hl⟩
  · exact division_of_exec h hf
  · exact refused_of_exec h hf
  · cases hf : e.failure with
    | none => rfl
    | some f =>
      cases f with
      | unknownVariable x =>
        obtain ⟨hp, hx, hl⟩ := unknown_of_exec h hf
        obtain ⟨policy, unbound⟩ := unbound_of_exec h
        rcases known with ⟨v, hv⟩ | bound
        · cases hv.symm.trans (policy ▸ hp)
        · exact absurd (unbound x hl) (bound x hx)
      | divisionByZero => exact absurd (division_of_exec h hf) hdiv
      | output d => exact absurd hf (not_output h d)
      | misapplied sort => exact absurd hf (not_misapplied h sort)
  · cases Expr.arises_of_eval hf

/-- `HOME c := d` with nothing bound emits its command and then fails to read `d`. With a default it
runs to its end, and into a store that is full it does not come to that. -/
theorem exec_failure_unbound :
    ("d" ∈ (⟨[.action .home, .assign "c" (.variable "d")]⟩ : Program).reads ∧
    Variables.empty.lookup "d" = none) ∧
    (∀ e, (⟨[.action .home, .assign "c" (.variable "d")]⟩ : Program).exec 0
      ⟨⟨.empty, .default .one⟩, (#[] : Array Command)⟩ = some e → e.failure = none) ∧
    ∃ c s sink, Sink.emit c s = (sink, some "full") ∧
      (⟨[.action .home, .assign "c" (.variable "d")]⟩ : Program).exec 0
        ⟨.empty, (⟨"", some 1, "full", none⟩ : TextSink)⟩ = some ⟨⟨.empty, sink⟩, some (.output "full")⟩ := by
  let p : Program := ⟨[.action .home, .assign "c" (.variable "d")]⟩
  have strict : p.exec 0 ⟨.empty, (#[] : Array Command)⟩ =
      some ⟨⟨.empty, #[.home]⟩, some (.unknownVariable "d")⟩ := rfl
  have full : p.exec 0 ⟨.empty, (⟨"", some 1, "full", none⟩ : TextSink)⟩ =
    some ⟨⟨.empty, ⟨"H", some 0, "full", none⟩⟩, some (.output "full")⟩ := rfl
  obtain ⟨every, list, -⟩ := exec_failure p 0
  refine ⟨?_, fun e h => ?_, ?_⟩
  · obtain ⟨-, reads, unbound, -⟩ := (every _ _ strict).2.1 "d" rfl
    exact ⟨reads, unbound⟩
  · exact (list _ e h).2 (by decide) (.inl ⟨.one, rfl⟩)
  · obtain ⟨c, s, refused⟩ := (every _ _ full).2.2.2 "full" rfl
    exact ⟨c, s, _, refused, full⟩

end Program

end Turtle
