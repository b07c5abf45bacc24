import Turtle.Execution

/-!
# The bound on passes

`exec_mono`: what a run answers with some bound on the passes of its loops, it answers with every larger one.
So the bound decides only whether there is an answer, and two answers to one question agree (`exec_unique`).
-/

namespace Turtle

section
variable {σ : Type} [Sink σ]

theorem iterate_mono {test : Machine σ → Except Failure Bool} {body body' : Machine σ → Option (Ending σ)}
    (hb : ∀ m e, body m = some e → body' m = some e) {limit limit' count : Nat} (hl : limit ≤ limit')
    {m : Machine σ} {e : Ending σ} (h : iterate test body limit count m = some e) :
    iterate test body' limit' count m = some e := by
  induction limit generalizing limit' count m with
  | zero => simp [iterate] at h
  | succ limit ih =>
    obtain ⟨k, rfl⟩ : ∃ k, limit' = k + 1 := ⟨limit' - 1, by omega⟩
    unfold iterate at h ⊢
    cases ht : test m with
    | error f => simpa [ht] using h
    | ok b =>
      cases b with
      | false => simpa [ht] using h
      | true =>
        simp only [ht] at h ⊢
        cases he : body (m.pass (count + 1)) with
        | none => simp [he] at h
        | some e₁ =>
          obtain ⟨m₁, r₁⟩ := e₁
          rw [hb _ _ he]
          rw [he] at h
          cases r₁ with
          | none => exact ih (by omega) h
          | some f => exact h

mutual

theorem exec_mono {limit limit' : Nat} (hl : limit ≤ limit') (s : Stmt) {m : Machine σ} {e : Ending σ}
    (h : s.exec limit m = some e) : s.exec limit' m = some e := by
  match s with
  | .assign _ _ | .action _ | .motion _ _ => exact h
  | .block body => exact execAll_mono hl body h
  | .while test body => exact iterate_mono (fun _ _ h => exec_mono hl body h) hl h
  | .conditional test body alternative =>
    unfold Stmt.exec at h ⊢
    split at h
    · exact exec_mono hl body h
    · exact execAlternative_mono hl alternative h
    · exact h

theorem execAll_mono {limit limit' : Nat} (hl : limit ≤ limit') (ss : List Stmt) {m : Machine σ}
    {e : Ending σ} (h : Stmt.execAll limit ss m = some e) : Stmt.execAll limit' ss m = some e := by
  match ss with
  | [] => exact h
  | s :: ss =>
    unfold Stmt.execAll at h ⊢
    cases he : s.exec limit m with
    | none => simp [he] at h
    | some e₁ =>
      rw [exec_mono hl s he]
      rw [he] at h
      obtain ⟨m₁, r₁⟩ := e₁
      cases r₁ with
      | none => exact execAll_mono hl ss h
      | some f => exact h

theorem execAlternative_mono {limit limit' : Nat} (hl : limit ≤ limit') (o : Option Stmt) {m : Machine σ}
    {e : Ending σ} (h : Stmt.execAlternative limit o m = some e) :
    Stmt.execAlternative limit' o m = some e := by
  match o with
  | none => exact h
  | some s => exact exec_mono hl s h

end

theorem exec_unique {limit limit' : Nat} {s : Stmt} {m : Machine σ} {e e' : Ending σ}
    (h : s.exec limit m = some e) (h' : s.exec limit' m = some e') : e = e' := by
  have h₁ := exec_mono (Nat.le_max_left limit limit') s h
  have h₂ := exec_mono (Nat.le_max_right limit limit') s h'
  exact Option.some.inj (h₁.symm.trans h₂)

end

end Turtle
