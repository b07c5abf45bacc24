import Turtle.Proofs.Execution.Causes

/-!
# Runs and their sinks

A run deals with its sink by attempts to emit and by passes only. What each of them does to a sink, a
whole run does (`Tracks.exec`), and a map of sinks that commutes with them commutes with runs
(`SinkMap.exec`).
-/

namespace Turtle

/-! ## Evaluation does not write -/

def WritesNothing {α : Type} (r : Except Failure α) : Prop := ∀ f, r = .error f → ∀ d, f ≠ .output d

namespace WritesNothing

theorem eval (vars : Variables) (e : Expr) : WritesNothing (e.eval vars) := by
  intro f hf d hd
  cases hd
  cases Expr.arises_of_eval hf

theorem holds (vars : Variables) (e : Expr) : WritesNothing (e.holds vars) := by
  intro f hf d hd
  cases hd
  cases Expr.arises_of_holds hf

end WritesNothing

/-! ## From attempts to runs -/

/-- `T s r s'` is a relation between the sink before, the failure and the sink behind that attempts and
passes keep to, and with them every sequence of them that ends at the first failure. -/
structure Tracks {σ : Type} [Sink σ] (T : σ → Option Failure → σ → Prop) : Prop where
  idle : ∀ s, T s none s
  stop : ∀ s f, (∀ d, f ≠ .output d) → T s (some f) s
  emit : ∀ c s, T s ((Sink.emit c s).2.map .output) (Sink.emit c s).1
  pass : ∀ n s, T s none (Sink.pass n s)
  trans : ∀ {s s' s'' r}, T s none s' → T s' r s'' → T s r s''

namespace Tracks

variable {σ : Type} [Sink σ] {T : σ → Option Failure → σ → Prop}

theorem iterate (h : Tracks T) {c : Expr} {body : Machine σ → Option (Ending σ)}
    (hb : ∀ m e, body m = some e → T m.sink e.failure e.machine.sink) {limit count : Nat} {m : Machine σ}
    {e : Ending σ} (he : iterate (fun m => c.holds m.vars) body limit count m = some e) :
    T m.sink e.failure e.machine.sink := by
  induction limit generalizing count m with
  | zero => cases he
  | succ limit ih =>
    unfold Turtle.iterate at he
    split at he
    · rename_i f hc
      cases he
      exact h.stop _ f (WritesNothing.holds _ _ f hc)
    · cases he
      exact h.idle _
    · have hp := h.pass (count + 1) m.sink
      split at he
      · cases he
      · rename_i hm
        cases he
        exact h.trans hp (hb _ _ hm)
      · rename_i hm
        exact h.trans hp (h.trans (hb _ _ hm) (ih he))

mutual

theorem exec (h : Tracks T) {limit : Nat} (s : Stmt) {m : Machine σ} {e : Ending σ}
    (he : s.exec limit m = some e) :
    T m.sink e.failure e.machine.sink := by
  match s with
  | .assign x v =>
    unfold Stmt.exec at he
    split at he <;> cases he
    · exact h.idle _
    · exact h.stop _ _ (WritesNothing.eval _ _ _ ‹_›)
  | .block ss => exact execAll h ss he
  | .while c s => exact h.iterate (fun _ _ => exec h s) he
  | .conditional c s o =>
    unfold Stmt.exec at he
    split at he
    · exact exec h s he
    · exact execAlternative h o he
    · cases he
      exact h.stop _ _ (WritesNothing.holds _ _ _ ‹_›)
  | .action a =>
    cases he
    exact h.emit a.command m.sink
  | .motion k v =>
    unfold Stmt.exec at he
    split at he <;> cases he
    · exact h.emit _ m.sink
    · exact h.stop _ _ (WritesNothing.eval _ _ _ ‹_›)

theorem execAll (h : Tracks T) {limit : Nat} (ss : List Stmt) {m : Machine σ} {e : Ending σ}
    (he : Stmt.execAll limit ss m = some e) : T m.sink e.failure e.machine.sink := by
  match ss with
  | [] =>
    cases he
    exact h.idle _
  | s :: ss =>
    unfold Stmt.execAll at he
    split at he
    · cases he
    · rename_i e₁ hs
      have h₁ := exec h s hs
      obtain ⟨m₁, r₁⟩ := e₁
      cases r₁ with
      | some f =>
        cases he
        exact h₁
      | none => exact h.trans h₁ (execAll h ss he)

theorem execAlternative (h : Tracks T) {limit : Nat} (o : Option Stmt) {m : Machine σ} {e : Ending σ}
    (he : Stmt.execAlternative limit o m = some e) : T m.sink e.failure e.machine.sink := by
  match o with
  | none =>
    cases he
    exact h.idle _
  | some s => exact exec h s he

end

end Tracks

/-! ## Maps of sinks -/

def Machine.map {σ τ : Type} (f : σ → τ) (m : Machine σ) : Machine τ := ⟨m.vars, f m.sink⟩

def Ending.map {σ τ : Type} (f : σ → τ) (e : Ending σ) : Ending τ := ⟨e.machine.map f, e.failure⟩

structure SinkMap {σ τ : Type} [Sink σ] [Sink τ] (f : σ → τ) : Prop where
  emit : ∀ c s, Sink.emit c (f s) = (Sink.emit c s).map f id
  pass : ∀ n s, Sink.pass n (f s) = f (Sink.pass n s)

namespace SinkMap

variable {σ τ : Type} [Sink σ] [Sink τ] {f : σ → τ}

theorem iterate (h : SinkMap f) {c : Expr} {body : Machine σ → Option (Ending σ)}
    {body' : Machine τ → Option (Ending τ)} (hb : ∀ m, body' (m.map f) = (body m).map (Ending.map f))
    (limit count : Nat) (m : Machine σ) :
    Turtle.iterate (fun m => c.holds m.vars) body' limit count (m.map f) =
      (Turtle.iterate (fun m => c.holds m.vars) body limit count m).map (Ending.map f) := by
  induction limit generalizing count m with
  | zero => rfl
  | succ limit ih =>
    have hm : (m.map f).pass (count + 1) = (m.pass (count + 1)).map f :=
      congrArg (Machine.mk m.vars) (h.pass _ _)
    unfold Turtle.iterate
    simp only [hm, hb]
    cases hc : c.holds m.vars with
    | error g => simp only [Machine.map, hc]; rfl
    | ok b =>
      cases b with
      | false => simp only [Machine.map, hc]; rfl
      | true =>
        simp only [Machine.map, hc]
        rcases body (m.pass (count + 1)) with _ | ⟨m', _ | g⟩
        · rfl
        · exact ih (count + 1) m'
        · rfl

theorem machine_emit (h : SinkMap f) (m : Machine σ) (c : Command) : (m.map f).emit c = (m.emit c).map f := by
  simp only [Machine.emit, Machine.map, h.emit]
  rfl

mutual

theorem exec (h : SinkMap f) (limit : Nat) (s : Stmt) (m : Machine σ) :
    s.exec limit (m.map f) = (s.exec limit m).map (Ending.map f) := by
  match s with
  | .assign x v =>
    unfold Stmt.exec
    rw [show (m.map f).vars = m.vars from rfl]
    cases v.eval m.vars <;> rfl
  | .block ss => exact execAll h limit ss m
  | .while c s => exact h.iterate (exec h limit s) limit 0 m
  | .conditional c s o =>
    unfold Stmt.exec
    rw [show (m.map f).vars = m.vars from rfl]
    match c.holds m.vars with
    | .error _ => rfl
    | .ok true => exact exec h limit s m
    | .ok false => exact execAlternative h limit o m
  | .action a => exact congrArg some (h.machine_emit m a.command)
  | .motion k v =>
    unfold Stmt.exec
    rw [show (m.map f).vars = m.vars from rfl]
    cases v.eval m.vars with
    | error _ => rfl
    | ok v => exact congrArg some (h.machine_emit m (k.command v))

theorem execAll (h : SinkMap f) (limit : Nat) (ss : List Stmt) (m : Machine σ) :
    Stmt.execAll limit ss (m.map f) = (Stmt.execAll limit ss m).map (Ending.map f) := by
  match ss with
  | [] => rfl
  | s :: ss =>
    unfold Stmt.execAll
    rw [exec h limit s m]
    match s.exec limit m with
    | none => rfl
    | some ⟨m', some _⟩ => rfl
    | some ⟨m', none⟩ => exact execAll h limit ss m'

theorem execAlternative (h : SinkMap f) (limit : Nat) (o : Option Stmt) (m : Machine σ) :
    Stmt.execAlternative limit o (m.map f) = (Stmt.execAlternative limit o m).map (Ending.map f) := by
  match o with
  | none => rfl
  | some s => exact exec h limit s m

end

end SinkMap

end Turtle
