import Turtle.Proofs.Execution.Sinks

/-!
# Sessions

One machine that is asked for one thing after the other and goes on after a failure. `Recorded` is a
sink that keeps a list of the attempts at it. The list changes nothing (`performAll_recorded`), and a
run adds to it until it is over or is refused a command (`Recorded.exec`).
-/

namespace Turtle

/-- A sink with a buffer. To empty it changes nothing that the sink has taken, but may fail. -/
class Buffered (σ : Type) extends Sink σ where
  flush : σ → Option String

instance : Buffered TextSink where
  flush := TextSink.flush

inductive Request
  | emit (c : Command)
  | run (p : Program)
  | flush

section
variable {σ : Type} [Buffered σ]

def Request.perform (limit : Nat) : Request → Machine σ → Option (Ending σ)
  | .emit c, m => some (m.emit c)
  | .run p, m => p.exec limit m
  | .flush, m => some ⟨m, (Buffered.flush m.sink).map .output⟩

def performAll (limit : Nat) : List Request → Machine σ → Option (Machine σ × List (Option Failure))
  | [], m => some (m, [])
  | q :: qs, m =>
    match q.perform limit m with
    | none => none
    | some e => (performAll limit qs e.machine).map fun (m', rs) => (m', e.failure :: rs)

theorem performAll_append {limit : Nat} {qs : List Request} (qs' : List Request) {m m' : Machine σ}
    {rs : List (Option Failure)} (h : performAll limit qs m = some (m', rs)) :
    performAll limit (qs ++ qs') m = (performAll limit qs' m').map fun (m'', rs') => (m'', rs ++ rs') := by
  induction qs generalizing m rs with
  | nil =>
    cases h
    exact Option.map_id'.symm
  | cons q qs ih =>
    unfold performAll at h
    rw [List.cons_append, performAll]
    split at h
    · cases h
    · rename_i e he
      obtain ⟨⟨m₁, rs₁⟩, h₁, h₂⟩ := Option.map_eq_some_iff.mp h
      cases h₂
      rw [ih h₁, Option.map_map]
      rfl

theorem invariant_of_performAll {I : σ → Prop} (hemit : ∀ c s, I s → I (Sink.emit c s).1)
    (hpass : ∀ n s, I s → I (Sink.pass n s)) {limit : Nat} {qs : List Request} {m m' : Machine σ}
    {rs : List (Option Failure)} (h : performAll limit qs m = some (m', rs)) (hm : I m.sink) : I m'.sink := by
  have tracks : Tracks fun s _ s' => I s → I s' :=
    ⟨fun _ => id, fun _ _ _ => id, hemit, hpass, fun h h' => h' ∘ h⟩
  induction qs generalizing m rs with
  | nil =>
    cases h
    exact hm
  | cons q qs ih =>
    unfold performAll at h
    split at h
    · cases h
    · rename_i e he
      obtain ⟨⟨m₁, rs₁⟩, h₁, h₂⟩ := Option.map_eq_some_iff.mp h
      cases h₂
      refine ih h₁ ?_
      match q with
      | .emit c =>
        cases he
        exact hemit c m.sink hm
      | .run p => exact tracks.execAll p.statements he hm
      | .flush =>
        cases he
        exact hm

end

/-! ## Maps of buffered sinks -/

section
variable {σ τ : Type} [Buffered σ] [Buffered τ] {f : σ → τ}

theorem perform_map (h : SinkMap f) (hflush : ∀ s, Buffered.flush (f s) = Buffered.flush s) (limit : Nat)
    (q : Request) (m : Machine σ) : q.perform limit (m.map f) = (q.perform limit m).map (Ending.map f) := by
  match q with
  | .emit c => exact congrArg some (h.machine_emit m c)
  | .run p => exact h.execAll limit p.statements m
  | .flush =>
    have hm : Buffered.flush (m.map f).sink = Buffered.flush m.sink := hflush m.sink
    simp only [Request.perform, hm]
    rfl

theorem performAll_map (h : SinkMap f) (hflush : ∀ s, Buffered.flush (f s) = Buffered.flush s) (limit : Nat)
    (qs : List Request) (m : Machine σ) :
    performAll limit qs (m.map f) = (performAll limit qs m).map fun (m', rs) => (m'.map f, rs) := by
  induction qs generalizing m with
  | nil => rfl
  | cons q qs ih =>
    unfold performAll
    rw [perform_map h hflush limit q m]
    match q.perform limit m with
    | none => rfl
    | some e =>
      dsimp only [Option.map_some, Ending.map]
      rw [ih e.machine, Option.map_map, Option.map_map]
      rfl

end

/-! ## Attempts on record -/

structure Attempt (σ : Type) where
  command : Command
  refusal : Option String
  /-- The sink behind the attempt. -/
  sink : σ

structure Recorded (σ : Type) where
  sink : σ
  attempts : List (Attempt σ)

instance {σ : Type} [Sink σ] : Sink (Recorded σ) where
  emit c s :=
    let (sink, refusal) := Sink.emit c s.sink
    (⟨sink, s.attempts ++ [⟨c, refusal, sink⟩]⟩, refusal)
  pass n s := { s with sink := Sink.pass n s.sink }

instance {σ : Type} [Buffered σ] : Buffered (Recorded σ) where
  flush s := Buffered.flush s.sink

theorem performAll_recorded {σ : Type} [Buffered σ] {limit : Nat} {qs : List Request}
    {vars : Variables} {sink : σ} {m : Machine σ} {rs : List (Option Failure)}
    (h : performAll limit qs ⟨vars, sink⟩ = some (m, rs)) :
    ∃ attempts, performAll limit qs ⟨vars, (⟨sink, []⟩ : Recorded σ)⟩ =
      some (⟨m.vars, ⟨m.sink, attempts⟩⟩, rs) := by
  have forget : SinkMap (Recorded.sink : Recorded σ → σ) := ⟨fun _ _ => rfl, fun _ _ => rfl⟩
  have same := performAll_map forget (fun _ => rfl) limit qs ⟨vars, ⟨sink, []⟩⟩
  obtain ⟨⟨⟨vars', sink', attempts⟩, rs'⟩, hr, heq⟩ := Option.map_eq_some_iff.mp (same.symm.trans h)
  cases heq
  exact ⟨attempts, hr⟩

namespace Recorded

variable {σ : Type}

/-- What a run adds to the record: attempts that all succeed, or up to one that is
refused and ends the run. -/
inductive Adds : List (Attempt σ) → Option Failure → Prop
  | all {new : List (Attempt σ)} {r : Option Failure} (h : ∀ a ∈ new, a.refusal = none)
    (hr : ∀ d, r ≠ some (.output d)) : Adds new r
  | refused {new : List (Attempt σ)} {a : Attempt σ} {reason : String} (h : ∀ b ∈ new, b.refusal = none)
    (ha : a.refusal = some reason) : Adds (new ++ [a]) (some (.output reason))

theorem Adds.append {new new' : List (Attempt σ)} {r : Option Failure} (h : ∀ a ∈ new, a.refusal = none)
    (h' : Adds new' r) : Adds (new ++ new') r := by
  cases h' with
  | all hn hr => exact .all (List.forall_mem_append.mpr ⟨h, hn⟩) hr
  | refused hn ha =>
    rw [← List.append_assoc]
    exact .refused (List.forall_mem_append.mpr ⟨h, hn⟩) ha

theorem Adds.succeeded {new : List (Attempt σ)} (h : Adds new none) : ∀ a ∈ new, a.refusal = none := by
  cases h with
  | all h _ => exact h

section
variable [Sink σ]

theorem emit_eq (c : Command) (s : Recorded σ) :
    Sink.emit c s = (⟨(Sink.emit c s.sink).1,
      s.attempts ++ [⟨c, (Sink.emit c s.sink).2, (Sink.emit c s.sink).1⟩]⟩,
      (Sink.emit c s.sink).2) := rfl

theorem tracks : Tracks fun (s : Recorded σ) r s' => ∃ new, s'.attempts = s.attempts ++ new ∧ Adds new r where
  idle s := ⟨[], (List.append_nil _).symm, .all nofun nofun⟩
  stop s f hf := ⟨[], (List.append_nil _).symm, .all nofun fun d hd => hf d (Option.some.inj hd)⟩
  emit c s := by
    refine ⟨_, rfl, ?_⟩
    rw [emit_eq]
    cases (Sink.emit c s.sink).2 with
    | none => exact .all (List.forall_mem_singleton.mpr rfl) nofun
    | some reason => exact Adds.refused (List.forall_mem_nil _) rfl
  pass n s := ⟨[], (List.append_nil _).symm, .all nofun nofun⟩
  trans h h' := by
    obtain ⟨new, hs, hn⟩ := h
    obtain ⟨new', hs', hn'⟩ := h'
    exact ⟨new ++ new', by rw [hs', hs, List.append_assoc], hn'.append hn.succeeded⟩

theorem exec {limit : Nat} {p : Program} {m : Machine (Recorded σ)} {e : Ending (Recorded σ)}
    (h : p.exec limit m = some e) :
    ∃ new, e.machine.sink.attempts = m.sink.attempts ++ new ∧ Adds new e.failure :=
  tracks.execAll p.statements h

end

end Recorded

end Turtle
