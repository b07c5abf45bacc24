import Turtle.Execution.Rules

/-!
# Runs and rules

A run ends in some way if and only if the rules of execution derive that ending, and they derive no other.
-/

namespace Turtle

/-! ## Endings by rules -/

section
variable {m : Machine (Array Command)} {e e' : Ending (Array Command)}

theorem exec_iff_runs {s : Stmt} : (∃ limit, s.exec limit m = some e) ↔ e.Follows s.Runs m := by
  constructor
  · intro h
    obtain ⟨limit, h⟩ := h
    exact follows_of_exec s h
  · intro h
    obtain ⟨cs, hsink, hr⟩ := h
    obtain ⟨limit, hl⟩ := exec_of_runs hr m.sink
    refine ⟨limit, hl.trans ?_⟩
    rw [← hsink]

theorem execAll_iff_runsAll {ss : List Stmt} :
    (∃ limit, Stmt.execAll limit ss m = some e) ↔ e.Follows (Stmt.RunsAll ss) m := by
  constructor
  · intro h
    obtain ⟨limit, h⟩ := h
    exact follows_of_execAll ss h
  · intro h
    obtain ⟨cs, hsink, hr⟩ := h
    obtain ⟨limit, hl⟩ := execAll_of_runsAll hr m.sink
    refine ⟨limit, hl.trans ?_⟩
    rw [← hsink]

end

/-- From the same variables the rules allow one ending only, with one list of commands. -/
theorem Stmt.Runs.unique {s : Stmt} {vars vars₁ vars₂ : Variables} {r₁ r₂ : Option Failure}
    {cs₁ cs₂ : List Command} (h₁ : s.Runs vars r₁ vars₁ cs₁) (h₂ : s.Runs vars r₂ vars₂ cs₂) :
    r₁ = r₂ ∧ vars₁ = vars₂ ∧ cs₁ = cs₂ := by
  obtain ⟨l₁, hl₁⟩ := exec_of_runs h₁ #[]
  obtain ⟨l₂, hl₂⟩ := exec_of_runs h₂ #[]
  have h := exec_unique hl₁ hl₂
  rw [Ending.mk.injEq, Machine.mk.injEq] at h
  obtain ⟨⟨hvars, hsink⟩, hr⟩ := h
  exact ⟨hr, hvars, by simpa using hsink⟩

/-- Some number of passes is enough for a program to end in `vars'` by `r` with the commands `cs` behind those
already there, if and only if its statements do so by the rules. -/
theorem Program.exec_iff_runsAll (p : Program) (vars vars' : Variables) (sink sink' : Array Command)
    (r : Option Failure) :
    (∃ limit, p.exec limit ⟨vars, sink⟩ = some ⟨⟨vars', sink'⟩, r⟩) ↔
      ∃ cs : List Command, sink' = sink ++ cs.toArray ∧ Stmt.RunsAll p.statements vars r vars' cs :=
  execAll_iff_runsAll

end Turtle
