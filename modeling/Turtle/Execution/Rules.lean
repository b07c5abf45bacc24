import Turtle.Execution.Bound

/-!
# Rules of execution

What a run does, apart from how it is computed: from which variables a statement ends in which, with
which failure and after which commands. No rule speaks of a bound on passes. `follows_of_exec`: a run
into a list of commands ends as the rules say. `exec_of_accepts`: for every ending that the rules allow
there is a bound that is large enough to compute it, into any sink that takes the commands.
-/

namespace Turtle

/-! ## Single steps -/

inductive Action.Sends : Action → Command → Prop
  | home : Sends .home .home
  | penUp : Sends .penUp .penUp
  | penDown : Sends .penDown .penDown
  | pushState : Sends .pushState .pushState
  | popState : Sends .popState .popState

/-- The command of a motion by a number: a turn to the right is one to the left by the negated angle. -/
inductive Motion.Sends : Motion → Number → Command → Prop
  | forward {v : Number} : Sends .forward v (.move v)
  | left {v : Number} : Sends .left v (.rotate v)
  | right {v : Number} : Sends .right v (.rotate (-v))

/-- Of two states of the variables the second one binds `x` to `v`, and else is as the first one. A name
that is new comes behind the others. -/
structure Variables.Binds (vars : Variables) (x : String) (v : Number) (vars' : Variables) : Prop where
  bound : vars'.lookup x = some v
  others : ∀ y, y ≠ x → vars'.lookup y = vars.lookup y
  names : vars'.bindings.names =
    if x ∈ vars.bindings.names then vars.bindings.names else vars.bindings.names ++ [x]
  policy : vars'.policy = vars.policy

theorem Action.sends_iff {a : Action} {c : Command} : a.Sends c ↔ c = a.command := by
  constructor
  · intro h
    cases h <;> rfl
  · rintro rfl
    cases a <;> constructor

theorem Motion.sends_iff {m : Motion} {v : Number} {c : Command} : m.Sends v c ↔ c = m.command v := by
  constructor
  · intro h
    cases h <;> rfl
  · rintro rfl
    cases m <;> constructor

theorem Variables.binds_iff {vars vars' : Variables} {x : String} {v : Number} :
    vars.Binds x v vars' ↔ vars' = vars.put x v := by
  constructor
  · intro h
    have bindings : vars'.bindings = vars.bindings.insert x v := by
      refine Bindings.ext_lookup (h.names.trans (Bindings.names_insert _ x v).symm) fun y => ?_
      rw [Bindings.lookup_insert]
      split
      · rename_i hy
        exact hy ▸ h.bound
      · rename_i hy
        exact h.others y hy
    obtain ⟨bindings', policy'⟩ := vars'
    obtain rfl : policy' = vars.policy := h.policy
    exact congrArg (Variables.mk · vars.policy) bindings
  · rintro rfl
    refine ⟨?_, fun y hy => ?_, Bindings.names_insert _ x v, rfl⟩
    · rw [lookup_put, if_pos rfl]
    · rw [lookup_put, if_neg hy]

theorem Action.sends_command (a : Action) : a.Sends a.command := sends_iff.mpr rfl

theorem Motion.sends_command (m : Motion) (v : Number) : m.Sends v (m.command v) := sends_iff.mpr rfl

theorem Variables.binds_put (vars : Variables) (x : String) (v : Number) : vars.Binds x v (vars.put x v) :=
  binds_iff.mpr rfl

/-! ## Runs -/

namespace Stmt

mutual

/-- `s.Runs vars r vars' cs`: from `vars` the statement ends in `vars'`, with `cs` emitted, by the failure `r`
or by itself. -/
inductive Runs : Stmt → Variables → Option Failure → Variables → List Command → Prop
  | assign {x : String} {e : Expr} {vars vars' : Variables} {v : Number} (h : e.eval vars = .ok v)
    (hv : vars.Binds x v vars') : Runs (.assign x e) vars none vars' []
  | assignStops {x : String} {e : Expr} {vars : Variables} {f : Failure} (h : e.eval vars = .error f) :
    Runs (.assign x e) vars (some f) vars []
  | block {ss : List Stmt} {vars vars' : Variables} {r : Option Failure} {cs : List Command}
    (h : RunsAll ss vars r vars' cs) : Runs (.block ss) vars r vars' cs
  | whileStops {c : Expr} {s : Stmt} {vars : Variables} {f : Failure} (h : c.holds vars = .error f) :
    Runs (.while c s) vars (some f) vars []
  | whileOver {c : Expr} {s : Stmt} {vars : Variables} (h : c.holds vars = .ok false) :
    Runs (.while c s) vars none vars []
  | whileBreaks {c : Expr} {s : Stmt} {vars vars' : Variables} {f : Failure} {cs : List Command}
    (h : c.holds vars = .ok true) (hs : Runs s vars (some f) vars' cs) :
    Runs (.while c s) vars (some f) vars' cs
  | whileAgain {c : Expr} {s : Stmt} {vars vars₁ vars' : Variables} {r : Option Failure}
    {cs₁ cs₂ : List Command} (h : c.holds vars = .ok true) (hs : Runs s vars none vars₁ cs₁)
    (hw : Runs (.while c s) vars₁ r vars' cs₂) : Runs (.while c s) vars r vars' (cs₁ ++ cs₂)
  | conditionStops {c : Expr} {s : Stmt} {o : Option Stmt} {vars : Variables} {f : Failure}
    (h : c.holds vars = .error f) : Runs (.conditional c s o) vars (some f) vars []
  | conditionHolds {c : Expr} {s : Stmt} {o : Option Stmt} {vars vars' : Variables} {r : Option Failure}
    {cs : List Command} (h : c.holds vars = .ok true) (hs : Runs s vars r vars' cs) :
    Runs (.conditional c s o) vars r vars' cs
  | alternative {c : Expr} {s s' : Stmt} {vars vars' : Variables} {r : Option Failure} {cs : List Command}
    (h : c.holds vars = .ok false) (hs : Runs s' vars r vars' cs) :
    Runs (.conditional c s (some s')) vars r vars' cs
  | noAlternative {c : Expr} {s : Stmt} {vars : Variables} (h : c.holds vars = .ok false) :
    Runs (.conditional c s none) vars none vars []
  | action {a : Action} {vars : Variables} {c : Command} (h : a.Sends c) : Runs (.action a) vars none vars [c]
  | motion {m : Motion} {e : Expr} {vars : Variables} {v : Number} {c : Command} (h : e.eval vars = .ok v)
    (hc : m.Sends v c) : Runs (.motion m e) vars none vars [c]
  | motionStops {m : Motion} {e : Expr} {vars : Variables} {f : Failure} (h : e.eval vars = .error f) :
    Runs (.motion m e) vars (some f) vars []

inductive RunsAll : List Stmt → Variables → Option Failure → Variables → List Command → Prop
  | nil {vars : Variables} : RunsAll [] vars none vars []
  | stops {s : Stmt} {ss : List Stmt} {vars vars' : Variables} {f : Failure} {cs : List Command}
    (hs : Runs s vars (some f) vars' cs) : RunsAll (s :: ss) vars (some f) vars' cs
  | cons {s : Stmt} {ss : List Stmt} {vars vars₁ vars' : Variables} {r : Option Failure}
    {cs₁ cs₂ : List Command} (hs : Runs s vars none vars₁ cs₁) (ht : RunsAll ss vars₁ r vars' cs₂) :
    RunsAll (s :: ss) vars r vars' (cs₁ ++ cs₂)

end

end Stmt

/-! ## What is computed follows the rules -/

/-- A run from `m` to this ending follows the rules, and its commands stand behind those that `m` holds. -/
def Ending.Follows (runs : Variables → Option Failure → Variables → List Command → Prop)
    (m : Machine (Array Command)) (e : Ending (Array Command)) : Prop :=
  ∃ cs : List Command, e.machine.sink = m.sink ++ cs.toArray ∧ runs m.vars e.failure e.machine.vars cs

theorem follows_of_iterate {c : Expr} {s : Stmt} {l : Nat}
    (hs : ∀ m e, s.exec l m = some e → e.Follows s.Runs m) {limit count : Nat} {m : Machine (Array Command)}
    {e : Ending (Array Command)}
    (h : iterate (fun m => c.holds m.vars) (fun m => s.exec l m) limit count m = some e) :
    e.Follows (Stmt.while c s).Runs m := by
  induction limit generalizing count m with
  | zero => cases h
  | succ limit ih =>
    unfold iterate at h
    split at h
    · rename_i f hc
      cases h
      exact ⟨[], (Array.append_empty ..).symm, .whileStops hc⟩
    · rename_i hc
      cases h
      exact ⟨[], (Array.append_empty ..).symm, .whileOver hc⟩
    · rename_i hc
      rw [show m.pass (count + 1) = m from rfl] at h
      split at h
      · cases h
      · rename_i hb
        cases h
        obtain ⟨cs, hm, hr⟩ := hs _ _ hb
        exact ⟨cs, hm, .whileBreaks hc hr⟩
      · rename_i m₁ hb
        obtain ⟨cs₁, hm₁, hr₁⟩ := hs _ _ hb
        obtain ⟨cs₂, hm₂, hr₂⟩ := ih h
        exact ⟨cs₁ ++ cs₂, by rw [hm₂, hm₁]; simp, .whileAgain hc hr₁ hr₂⟩

mutual

theorem follows_of_exec {limit : Nat} (s : Stmt) {m : Machine (Array Command)} {e : Ending (Array Command)}
    (h : s.exec limit m = some e) : e.Follows s.Runs m := by
  match s with
  | .assign x v =>
    unfold Stmt.exec at h
    split at h <;> cases h
    · exact ⟨[], (Array.append_empty ..).symm, .assign ‹_› (Variables.binds_put ..)⟩
    · exact ⟨[], (Array.append_empty ..).symm, .assignStops ‹_›⟩
  | .block ss =>
    obtain ⟨cs, hm, hr⟩ := follows_of_execAll ss h
    exact ⟨cs, hm, .block hr⟩
  | .while c s => exact follows_of_iterate (fun _ _ => follows_of_exec s) h
  | .conditional c s o =>
    unfold Stmt.exec at h
    split at h
    · obtain ⟨cs, hm, hr⟩ := follows_of_exec s h
      exact ⟨cs, hm, .conditionHolds ‹_› hr⟩
    · match o with
      | none =>
        cases h
        exact ⟨[], (Array.append_empty ..).symm, .noAlternative ‹_›⟩
      | some s' =>
        obtain ⟨cs, hm, hr⟩ := follows_of_exec s' h
        exact ⟨cs, hm, .alternative ‹_› hr⟩
    · cases h
      exact ⟨[], (Array.append_empty ..).symm, .conditionStops ‹_›⟩
  | .action a =>
    cases h
    exact ⟨[a.command], Array.push_eq_append, .action a.sends_command⟩
  | .motion k v =>
    unfold Stmt.exec at h
    split at h <;> cases h
    · exact ⟨[k.command _], Array.push_eq_append, .motion ‹_› (k.sends_command _)⟩
    · exact ⟨[], (Array.append_empty ..).symm, .motionStops ‹_›⟩

theorem follows_of_execAll {limit : Nat} (ss : List Stmt) {m : Machine (Array Command)}
    {e : Ending (Array Command)} (h : Stmt.execAll limit ss m = some e) : e.Follows (Stmt.RunsAll ss) m := by
  match ss with
  | [] =>
    cases h
    exact ⟨[], (Array.append_empty ..).symm, .nil⟩
  | s :: ss =>
    unfold Stmt.execAll at h
    split at h
    · cases h
    · rename_i e₁ he
      obtain ⟨cs₁, hm₁, hr₁⟩ := follows_of_exec s he
      obtain ⟨m₁, r₁⟩ := e₁
      cases r₁ with
      | some f =>
        cases h
        exact ⟨cs₁, hm₁, .stops hr₁⟩
      | none =>
        obtain ⟨cs₂, hm₂, hr₂⟩ := follows_of_execAll ss h
        exact ⟨cs₁ ++ cs₂, by rw [hm₂, hm₁]; simp, .cons hr₁ hr₂⟩

end

/-! ## What follows the rules is computed -/

inductive Accepts {σ : Type} [Sink σ] : σ → List Command → σ → Prop
  | nil {s : σ} : Accepts s [] s
  | cons {s s₁ s₂ : σ} {c : Command} {cs : List Command} (h : Sink.emit c s = (s₁, none))
      (ht : Accepts s₁ cs s₂) :
    Accepts s (c :: cs) s₂

namespace Accepts

theorem split {σ : Type} [Sink σ] {s s' : σ} {cs₁ cs₂ : List Command} (h : Accepts s (cs₁ ++ cs₂) s') :
    ∃ s₁, Accepts s cs₁ s₁ ∧ Accepts s₁ cs₂ s' := by
  induction cs₁ generalizing s with
  | nil => exact ⟨s, .nil, h⟩
  | cons c cs₁ ih =>
    cases h with
    | cons hc ht =>
      obtain ⟨s₁, h₁, h₂⟩ := ih ht
      exact ⟨s₁, .cons hc h₁, h₂⟩

theorem array (sink : Array Command) (cs : List Command) : Accepts sink cs (sink ++ cs.toArray) := by
  induction cs generalizing sink with
  | nil => exact Array.append_empty .. ▸ .nil
  | cons c cs ih =>
    rw [List.toArray_cons, ← Array.append_assoc, ← Array.push_eq_append]
    exact .cons rfl (ih _)

end Accepts

section
variable {σ : Type} [Sink σ]

section
variable (hpass : ∀ n (s : σ), Sink.pass n s = s)
include hpass

theorem Machine.pass_eq (m : Machine σ) (n : Nat) : m.pass n = m := by rw [pass, hpass]

theorem iterate_count {test : Machine σ → Except Failure Bool} {body : Machine σ → Option (Ending σ)}
    (limit count count' : Nat) (m : Machine σ) :
    iterate test body limit count m = iterate test body limit count' m := by
  induction limit generalizing count count' m with
  | zero => rfl
  | succ limit ih =>
    unfold iterate
    simp only [ih (count + 1) (count' + 1), Machine.pass_eq hpass]

theorem iterate_body {c : Expr} {body : Machine σ → Option (Ending σ)} {limit : Nat} (count : Nat)
    {m m' : Machine σ} {r : Option Failure} (hc : c.holds m.vars = .ok true) (hb : body m = some ⟨m', r⟩) :
    iterate (fun m => c.holds m.vars) body (limit + 1) count m =
      match r with
      | some f => some (m'.fail f)
      | none => iterate (fun m => c.holds m.vars) body limit (count + 1) m' := by
  rw [iterate]
  simp only [hc, Machine.pass_eq hpass, hb]
  cases r <;> rfl

/-- One more pass of a loop, with as many passes for the body and for the rest as either needs. -/
theorem exec_while_again {c : Expr} {s : Stmt} {m m₁ : Machine σ} {e : Ending σ} {l₁ l₂ : Nat}
    (hc : c.holds m.vars = .ok true) (h₁ : s.exec l₁ m = some m₁.succeed)
    (h₂ : (Stmt.while c s).exec l₂ m₁ = some e) : ∃ limit, (Stmt.while c s).exec limit m = some e := by
  have hb := exec_mono (Nat.le_succ_of_le (Nat.le_max_left l₁ l₂)) s h₁
  refine ⟨max l₁ l₂ + 1, (iterate_body hpass 0 hc hb).trans ?_⟩
  rw [iterate_count hpass _ _ 0]
  exact iterate_mono (fun _ _ => exec_mono (by omega) s) (by omega) h₂

end

theorem execAll_cons {s : Stmt} {ss : List Stmt} {m m₁ : Machine σ} {e : Ending σ} {l₁ l₂ : Nat}
    (h₁ : s.exec l₁ m = some m₁.succeed) (h₂ : Stmt.execAll l₂ ss m₁ = some e) :
    ∃ limit, Stmt.execAll limit (s :: ss) m = some e := by
  refine ⟨max l₁ l₂, ?_⟩
  rw [Stmt.execAll, exec_mono (Nat.le_max_left l₁ l₂) s h₁]
  exact execAll_mono (Nat.le_max_right l₁ l₂) ss h₂

mutual

theorem exec_of_accepts (hpass : ∀ n (s : σ), Sink.pass n s = s) {s : Stmt} {vars vars' : Variables}
    {r : Option Failure} {cs : List Command} (h : s.Runs vars r vars' cs) {sink sink' : σ}
    (ha : Accepts sink cs sink') :
    ∃ limit, s.exec limit ⟨vars, sink⟩ = some ⟨⟨vars', sink'⟩, r⟩ := by
  match h with
  | .assign h hv =>
    obtain rfl := Variables.binds_iff.mp hv
    cases ha
    exact ⟨0, by simp [Stmt.exec, h, Machine.succeed]⟩
  | .assignStops h =>
    cases ha
    exact ⟨0, by simp [Stmt.exec, h, Machine.fail]⟩
  | .block h => exact execAll_of_accepts hpass h ha
  | .whileStops h | .whileOver h =>
    cases ha
    exact ⟨1, by simp [Stmt.exec, iterate, h, Machine.succeed, Machine.fail]⟩
  | @Stmt.Runs.whileBreaks c s _ _ _ _ h hs =>
    obtain ⟨l, hl⟩ := exec_of_accepts hpass hs ha
    exact ⟨l + 1, iterate_body hpass 0 h (exec_mono (Nat.le_succ l) s hl)⟩
  | .whileAgain h hs hw =>
    -- the pass and the loop behind it each have a bound of their own
    obtain ⟨sink₁, ha₁, ha₂⟩ := ha.split
    obtain ⟨l₁, h₁⟩ := exec_of_accepts hpass hs ha₁
    obtain ⟨l₂, h₂⟩ := exec_of_accepts hpass hw ha₂
    exact exec_while_again hpass h h₁ h₂
  | .conditionStops h =>
    cases ha
    exact ⟨0, by simp [Stmt.exec, h, Machine.fail]⟩
  | .conditionHolds h hs =>
    obtain ⟨l, hl⟩ := exec_of_accepts hpass hs ha
    exact ⟨l, by simp [Stmt.exec, h, hl]⟩
  | .alternative h hs =>
    obtain ⟨l, hl⟩ := exec_of_accepts hpass hs ha
    exact ⟨l, by simp [Stmt.exec, h, Stmt.execAlternative, hl]⟩
  | .noAlternative h =>
    cases ha
    exact ⟨0, by simp [Stmt.exec, h, Stmt.execAlternative, Machine.succeed]⟩
  | .action h =>
    obtain rfl := Action.sends_iff.mp h
    cases ha with
    | cons hc ht =>
      cases ht
      exact ⟨0, by simp [Stmt.exec, Machine.emit, hc]⟩
  | .motion h hm =>
    obtain rfl := Motion.sends_iff.mp hm
    cases ha with
    | cons hc ht =>
      cases ht
      exact ⟨0, by simp [Stmt.exec, h, Machine.emit, hc]⟩
  | .motionStops h =>
    cases ha
    exact ⟨0, by simp [Stmt.exec, h, Machine.fail]⟩

theorem execAll_of_accepts (hpass : ∀ n (s : σ), Sink.pass n s = s) {ss : List Stmt} {vars vars' : Variables}
    {r : Option Failure} {cs : List Command} (h : Stmt.RunsAll ss vars r vars' cs) {sink sink' : σ}
    (ha : Accepts sink cs sink') :
    ∃ limit, Stmt.execAll limit ss ⟨vars, sink⟩ = some ⟨⟨vars', sink'⟩, r⟩ := by
  match h with
  | .nil =>
    cases ha
    exact ⟨0, by simp [Stmt.execAll, Machine.succeed]⟩
  | .stops hs =>
    obtain ⟨l, hl⟩ := exec_of_accepts hpass hs ha
    exact ⟨l, by simp [Stmt.execAll, hl, Ending.andThen]⟩
  | .cons hs ht =>
    obtain ⟨sink₁, ha₁, ha₂⟩ := ha.split
    obtain ⟨l₁, h₁⟩ := exec_of_accepts hpass hs ha₁
    obtain ⟨l₂, h₂⟩ := execAll_of_accepts hpass ht ha₂
    exact execAll_cons h₁ h₂

end

end

theorem exec_of_runs {s : Stmt} {vars vars' : Variables} {r : Option Failure} {cs : List Command}
    (h : s.Runs vars r vars' cs) (sink : Array Command) :
    ∃ limit, s.exec limit ⟨vars, sink⟩ = some ⟨⟨vars', sink ++ cs.toArray⟩, r⟩ :=
  exec_of_accepts (fun _ _ => rfl) h (.array sink cs)

theorem execAll_of_runsAll {ss : List Stmt} {vars vars' : Variables} {r : Option Failure} {cs : List Command}
    (h : Stmt.RunsAll ss vars r vars' cs) (sink : Array Command) :
    ∃ limit, Stmt.execAll limit ss ⟨vars, sink⟩ = some ⟨⟨vars', sink ++ cs.toArray⟩, r⟩ :=
  execAll_of_accepts (fun _ _ => rfl) h (.array sink cs)

end Turtle
