import Turtle.Proofs.Execution.BigStep

/-!
# Moments of a run

A run that emits a command has come to it with certain variables, whatever becomes of the command. A sink that
takes all commands before it and refuses this one ends the run in that moment.
-/

namespace Turtle

namespace Stmt

mutual

/-- `s.Reaches vars cs vars' c`: from `vars` the statement emits `cs` and is then, in `vars'`, about to
emit `c`. -/
inductive Reaches : Stmt → Variables → List Command → Variables → Command → Prop
  | block {ss : List Stmt} {vars vars' : Variables} {cs : List Command} {c : Command}
    (h : ReachesAll ss vars cs vars' c) : Reaches (.block ss) vars cs vars' c
  | whileBody {e : Expr} {s : Stmt} {vars vars' : Variables} {cs : List Command} {c : Command}
    (h : e.holds vars = .ok true) (hs : Reaches s vars cs vars' c) : Reaches (.while e s) vars cs vars' c
  | whileAgain {e : Expr} {s : Stmt} {vars vars₁ vars' : Variables} {cs₁ cs₂ : List Command} {c : Command}
    (h : e.holds vars = .ok true) (hs : Runs s vars none vars₁ cs₁)
    (hw : Reaches (.while e s) vars₁ cs₂ vars' c) : Reaches (.while e s) vars (cs₁ ++ cs₂) vars' c
  | conditionHolds {e : Expr} {s : Stmt} {o : Option Stmt} {vars vars' : Variables} {cs : List Command}
    {c : Command} (h : e.holds vars = .ok true) (hs : Reaches s vars cs vars' c) :
    Reaches (.conditional e s o) vars cs vars' c
  | alternative {e : Expr} {s s' : Stmt} {vars vars' : Variables} {cs : List Command} {c : Command}
    (h : e.holds vars = .ok false) (hs : Reaches s' vars cs vars' c) :
    Reaches (.conditional e s (some s')) vars cs vars' c
  | action {a : Action} {vars : Variables} {c : Command} (h : a.Sends c) : Reaches (.action a) vars [] vars c
  | motion {m : Motion} {e : Expr} {vars : Variables} {v : Number} {c : Command} (h : e.eval vars = .ok v)
    (hc : m.Sends v c) : Reaches (.motion m e) vars [] vars c

inductive ReachesAll : List Stmt → Variables → List Command → Variables → Command → Prop
  | head {s : Stmt} {ss : List Stmt} {vars vars' : Variables} {cs : List Command} {c : Command}
    (hs : Reaches s vars cs vars' c) : ReachesAll (s :: ss) vars cs vars' c
  | tail {s : Stmt} {ss : List Stmt} {vars vars₁ vars' : Variables} {cs₁ cs₂ : List Command} {c : Command}
    (hs : Runs s vars none vars₁ cs₁) (ht : ReachesAll ss vars₁ cs₂ vars' c) :
    ReachesAll (s :: ss) vars (cs₁ ++ cs₂) vars' c

end

end Stmt

/-! ## Every command has its moment -/

theorem split_append {α : Type} {xs ys us vs : List α} {a : α} (h : xs ++ ys = us ++ a :: vs) :
    (∃ ws, xs = us ++ a :: ws) ∨ ∃ ws, us = xs ++ ws ∧ ys = ws ++ a :: vs := by
  rcases List.append_eq_append_iff.mp h with ⟨ws, hu, hy⟩ | ⟨ws, hx, ha⟩
  · exact .inr ⟨ws, hu, hy⟩
  · cases ws with
    | nil => exact .inr ⟨[], by simpa using hx.symm, by simpa using ha.symm⟩
    | cons b ws =>
      obtain ⟨rfl, -⟩ := List.cons.inj ha
      exact .inl ⟨ws, hx⟩

theorem split_singleton {α : Type} {us vs : List α} {a b : α} (h : [b] = us ++ a :: vs) :
    us = [] ∧ b = a := by
  cases us with
  | nil => exact ⟨rfl, (List.cons.inj h).1⟩
  | cons u us => simp at h

mutual

theorem reaches_of_runs {s : Stmt} {vars vars₁ : Variables} {r : Option Failure} {cs us vs : List Command}
    {c : Command} (h : s.Runs vars r vars₁ cs) (hcs : cs = us ++ c :: vs) :
    ∃ vars', s.Reaches vars us vars' c := by
  match h with
  | .assign _ _ | .assignStops _ | .whileStops _ | .whileOver _ | .conditionStops _ | .noAlternative _
  | .motionStops _ => simp at hcs
  | .block hs =>
    obtain ⟨vars', hr⟩ := reachesAll_of_runsAll hs hcs
    exact ⟨vars', .block hr⟩
  | .whileBreaks he hs =>
    obtain ⟨vars', hr⟩ := reaches_of_runs hs hcs
    exact ⟨vars', .whileBody he hr⟩
  | .whileAgain he hs hw =>
    rcases split_append hcs with ⟨ws, h₁⟩ | ⟨ws, rfl, h₂⟩
    · obtain ⟨vars', hr⟩ := reaches_of_runs hs h₁
      exact ⟨vars', .whileBody he hr⟩
    · obtain ⟨vars', hr⟩ := reaches_of_runs hw h₂
      exact ⟨vars', .whileAgain he hs hr⟩
  | .conditionHolds he hs =>
    obtain ⟨vars', hr⟩ := reaches_of_runs hs hcs
    exact ⟨vars', .conditionHolds he hr⟩
  | .alternative he hs =>
    obtain ⟨vars', hr⟩ := reaches_of_runs hs hcs
    exact ⟨vars', .alternative he hr⟩
  | .action ha =>
    obtain ⟨rfl, rfl⟩ := split_singleton hcs
    exact ⟨_, .action ha⟩
  | .motion he hm =>
    obtain ⟨rfl, rfl⟩ := split_singleton hcs
    exact ⟨_, .motion he hm⟩

theorem reachesAll_of_runsAll {ss : List Stmt} {vars vars₁ : Variables} {r : Option Failure}
    {cs us vs : List Command} {c : Command} (h : Stmt.RunsAll ss vars r vars₁ cs) (hcs : cs = us ++ c :: vs) :
    ∃ vars', Stmt.ReachesAll ss vars us vars' c := by
  match h with
  | .nil => simp at hcs
  | .stops hs =>
    obtain ⟨vars', hr⟩ := reaches_of_runs hs hcs
    exact ⟨vars', .head hr⟩
  | .cons hs ht =>
    rcases split_append hcs with ⟨ws, h₁⟩ | ⟨ws, rfl, h₂⟩
    · obtain ⟨vars', hr⟩ := reaches_of_runs hs h₁
      exact ⟨vars', .head hr⟩
    · obtain ⟨vars', hr⟩ := reachesAll_of_runsAll ht h₂
      exact ⟨vars', .tail hs hr⟩

end

/-! ## A refused command ends the run there -/

section
variable {σ : Type} [Sink σ]

mutual

theorem exec_of_refused (hpass : ∀ n (s : σ), Sink.pass n s = s) {s : Stmt} {vars vars' : Variables}
    {cs : List Command} {c : Command} (h : s.Reaches vars cs vars' c) {sink sink₁ sink₂ : σ} {reason : String}
    (ha : Accepts sink cs sink₁) (hc : Sink.emit c sink₁ = (sink₂, some reason)) :
    ∃ limit, s.exec limit ⟨vars, sink⟩ = some ⟨⟨vars', sink₂⟩, some (.output reason)⟩ := by
  match h with
  | .block h => exact execAll_of_refused hpass h ha hc
  | @Stmt.Reaches.whileBody e s _ _ _ _ he hs =>
    obtain ⟨l, hl⟩ := exec_of_refused hpass hs ha hc
    exact ⟨l + 1, iterate_body hpass 0 he (exec_mono (Nat.le_succ l) s hl)⟩
  | .whileAgain he hs hw =>
    obtain ⟨_, ha₁, ha₂⟩ := ha.split
    obtain ⟨l₁, h₁⟩ := exec_of_accepts hpass hs ha₁
    obtain ⟨l₂, h₂⟩ := exec_of_refused hpass hw ha₂ hc
    exact exec_while_again hpass he h₁ h₂
  | .conditionHolds he hs =>
    obtain ⟨l, hl⟩ := exec_of_refused hpass hs ha hc
    exact ⟨l, by simp [Stmt.exec, he, hl]⟩
  | .alternative he hs =>
    obtain ⟨l, hl⟩ := exec_of_refused hpass hs ha hc
    exact ⟨l, by simp [Stmt.exec, he, Stmt.execAlternative, hl]⟩
  | .action hs =>
    obtain rfl := Action.sends_iff.mp hs
    cases ha
    exact ⟨0, by simp [Stmt.exec, Machine.emit, hc]⟩
  | .motion he hm =>
    obtain rfl := Motion.sends_iff.mp hm
    cases ha
    exact ⟨0, by simp [Stmt.exec, he, Machine.emit, hc]⟩

theorem execAll_of_refused (hpass : ∀ n (s : σ), Sink.pass n s = s) {ss : List Stmt} {vars vars' : Variables}
    {cs : List Command} {c : Command} (h : Stmt.ReachesAll ss vars cs vars' c) {sink sink₁ sink₂ : σ}
    {reason : String} (ha : Accepts sink cs sink₁) (hc : Sink.emit c sink₁ = (sink₂, some reason)) :
    ∃ limit, Stmt.execAll limit ss ⟨vars, sink⟩ = some ⟨⟨vars', sink₂⟩, some (.output reason)⟩ := by
  match h with
  | .head hs =>
    obtain ⟨l, hl⟩ := exec_of_refused hpass hs ha hc
    exact ⟨l, by simp [Stmt.execAll, hl, Ending.andThen]⟩
  | .tail hs ht =>
    obtain ⟨_, ha₁, ha₂⟩ := ha.split
    obtain ⟨l₁, h₁⟩ := exec_of_accepts hpass hs ha₁
    obtain ⟨l₂, h₂⟩ := execAll_of_refused hpass ht ha₂ hc
    exact execAll_cons h₁ h₂

end

end

end Turtle
