import Turtle.Proofs.Execution.BigStep

/-!
# Runs that know more

A run that refuses unbound names compared with one that starts from more bindings, under any policy. Up to the
first name that is unknown both do the same, so that only a run that fails there can go another way.
-/

namespace Turtle

/-! ## Evaluations -/

/-- The second answer is the first one, unless that is a name that is not known. -/
def Agrees {α : Type} (r r' : Except Failure α) : Prop := (∃ x, r = .error (.unknownVariable x)) ∨ r' = r

namespace Agrees

variable {α β : Type} {r r' : Except Failure α}

theorem refl (r : Except Failure α) : Agrees r r := .inr rfl

theorem bind {f f' : α → Except Failure β} (h : Agrees r r') (hf : ∀ a, Agrees (f a) (f' a)) :
    Agrees (r >>= f) (r' >>= f') := by
  rcases h with ⟨x, rfl⟩ | rfl
  · exact .inl ⟨x, rfl⟩
  · cases r' with
    | error f => exact .inr rfl
    | ok a => exact hf a

theorem ok {a : α} (h : Agrees r r') (hr : r = .ok a) : r' = .ok a := by
  rcases h with ⟨x, hx⟩ | rfl
  · cases hx.symm.trans hr
  · exact hr

theorem error {f : Failure} (h : Agrees r r') (hr : r = .error f) (hf : ∀ x, f ≠ .unknownVariable x) :
    r' = .error f := by
  rcases h with ⟨x, hx⟩ | rfl
  · cases hx.symm.trans hr
    exact absurd rfl (hf x)
  · exact hr

end Agrees

/-- `vars` refuses unbound names, and `vars'` has its bindings in front of those of `start`. -/
structure Completes (start vars vars' : Variables) : Prop where
  strict : vars.policy = .reject
  lookup : ∀ x, vars'.lookup x = (vars.lookup x).or (start.lookup x)

namespace Completes

variable {start vars vars' : Variables} (h : Completes start vars vars')
include h

theorem put (x : String) (v : Number) : Completes start (vars.put x v) (vars'.put x v) := by
  refine ⟨h.strict, fun y => ?_⟩
  rw [Variables.lookup_put, Variables.lookup_put]
  split
  · rfl
  · exact h.lookup y

theorem get (x : String) : Agrees (vars.get x) (vars'.get x) := by
  unfold Variables.get
  rw [h.lookup x, h.strict]
  cases vars.lookup x with
  | none => exact .inl ⟨x, rfl⟩
  | some v => exact .inr rfl

theorem eval (e : Expr) : Agrees (e.eval vars) (e.eval vars') := by
  induction e with
  | «variable» x => exact h.get x
  | constant v => exact .refl _
  | negate e ih | not e ih => exact ih.bind fun _ => .refl _
  | binary op l r ihl ihr =>
    cases op with
    | and =>
      refine ihl.bind fun a => ?_
      split
      · exact ihr.bind fun _ => .refl _
      · exact .refl _
    | or =>
      refine ihl.bind fun a => ?_
      split
      · exact .refl _
      · exact ihr.bind fun _ => .refl _
    | _ => exact ihl.bind fun _ => ihr.bind fun _ => .refl _

theorem holds (e : Expr) : Agrees (e.holds vars) (e.holds vars') := (h.eval e).bind fun _ => .refl _

end Completes

/-! ## Runs that do not fail by an unknown name -/

theorem not_unknown {f : Failure} (hr : ∀ x, some f ≠ some (.unknownVariable x)) (x : String) :
    f ≠ .unknownVariable x :=
  fun he => hr x (congrArg some he)

theorem not_none_unknown (x : String) : (none : Option Failure) ≠ some (.unknownVariable x) := nofun

mutual

theorem runs_of_completes {s : Stmt} {start vars vars' vars₁ : Variables} {r : Option Failure}
    {cs : List Command} (h : s.Runs vars r vars₁ cs) (hr : ∀ x, r ≠ some (.unknownVariable x))
    (hv : Completes start vars vars') :
    ∃ vars₁', s.Runs vars' r vars₁' cs ∧ Completes start vars₁ vars₁' := by
  match h with
  | .assign he hb =>
    obtain rfl := Variables.binds_iff.mp hb
    exact ⟨_, .assign ((hv.eval _).ok he) (Variables.binds_put ..), hv.put _ _⟩
  | .assignStops he => exact ⟨_, .assignStops ((hv.eval _).error he (not_unknown hr)), hv⟩
  | .block hs =>
    obtain ⟨vars₁', hs', hv'⟩ := runsAll_of_completes hs hr hv
    exact ⟨vars₁', .block hs', hv'⟩
  | .whileStops hc => exact ⟨_, .whileStops ((hv.holds _).error hc (not_unknown hr)), hv⟩
  | .whileOver hc => exact ⟨_, .whileOver ((hv.holds _).ok hc), hv⟩
  | .whileBreaks hc hs =>
    obtain ⟨vars₁', hs', hv'⟩ := runs_of_completes hs hr hv
    exact ⟨vars₁', .whileBreaks ((hv.holds _).ok hc) hs', hv'⟩
  | .whileAgain hc hs hw =>
    obtain ⟨vars₂, hs', hv₂⟩ := runs_of_completes hs not_none_unknown hv
    obtain ⟨vars₁', hw', hv'⟩ := runs_of_completes hw hr hv₂
    exact ⟨vars₁', .whileAgain ((hv.holds _).ok hc) hs' hw', hv'⟩
  | .conditionStops hc => exact ⟨_, .conditionStops ((hv.holds _).error hc (not_unknown hr)), hv⟩
  | .conditionHolds hc hs =>
    obtain ⟨vars₁', hs', hv'⟩ := runs_of_completes hs hr hv
    exact ⟨vars₁', .conditionHolds ((hv.holds _).ok hc) hs', hv'⟩
  | .alternative hc hs =>
    obtain ⟨vars₁', hs', hv'⟩ := runs_of_completes hs hr hv
    exact ⟨vars₁', .alternative ((hv.holds _).ok hc) hs', hv'⟩
  | .noAlternative hc => exact ⟨_, .noAlternative ((hv.holds _).ok hc), hv⟩
  | .action hc => exact ⟨_, .action hc, hv⟩
  | .motion he hc => exact ⟨_, .motion ((hv.eval _).ok he) hc, hv⟩
  | .motionStops he => exact ⟨_, .motionStops ((hv.eval _).error he (not_unknown hr)), hv⟩

theorem runsAll_of_completes {ss : List Stmt} {start vars vars' vars₁ : Variables} {r : Option Failure}
    {cs : List Command} (h : Stmt.RunsAll ss vars r vars₁ cs) (hr : ∀ x, r ≠ some (.unknownVariable x))
    (hv : Completes start vars vars') :
    ∃ vars₁', Stmt.RunsAll ss vars' r vars₁' cs ∧ Completes start vars₁ vars₁' := by
  match h with
  | .nil => exact ⟨_, .nil, hv⟩
  | .stops hs =>
    obtain ⟨vars₁', hs', hv'⟩ := runs_of_completes hs hr hv
    exact ⟨vars₁', .stops hs', hv'⟩
  | .cons hs ht =>
    obtain ⟨vars₂, hs', hv₂⟩ := runs_of_completes hs not_none_unknown hv
    obtain ⟨vars₁', ht', hv'⟩ := runsAll_of_completes ht hr hv₂
    exact ⟨vars₁', .cons hs' ht', hv'⟩

end

/-! ## Runs that do -/

theorem Stmt.Runs.unique_of_completes {s : Stmt} {start vars vars' vars₁ vars₂ : Variables}
    {r : Option Failure} {cs cs' : List Command} (h : s.Runs vars none vars₁ cs)
    (hv : Completes start vars vars') (h' : s.Runs vars' r vars₂ cs') :
    r = none ∧ cs' = cs ∧ Completes start vars₁ vars₂ := by
  obtain ⟨vars₁', hs, hv'⟩ := runs_of_completes h not_none_unknown hv
  obtain ⟨rfl, rfl, rfl⟩ := h'.unique hs
  exact ⟨rfl, rfl, hv'⟩

mutual

theorem prefix_of_unknown {s : Stmt} {start vars vars' vars₁ vars₂ : Variables} {r r' : Option Failure}
    {cs cs' : List Command} (h : s.Runs vars r vars₁ cs) {x : String} (hr : r = some (.unknownVariable x))
    (hv : Completes start vars vars') (h' : s.Runs vars' r' vars₂ cs') : cs <+: cs' := by
  match h with
  | .assign _ _ | .whileOver _ | .noAlternative _ => exact List.nil_prefix
  | .assignStops _ | .whileStops _ | .conditionStops _ | .motionStops _ => exact List.nil_prefix
  | .action _ | .motion _ _ => cases hr
  | .block hs =>
    cases h' with
    | block hs' => exact prefix_of_unknown_all hs hr hv hs'
  | .whileBreaks hc hs =>
    have hc' := (hv.holds _).ok hc
    cases h' with
    | whileStops hc₂ | whileOver hc₂ => cases hc'.symm.trans hc₂
    | whileBreaks _ hs' => exact prefix_of_unknown hs hr hv hs'
    -- where the one run stops in its pass the other one may go on to the next
    | whileAgain _ hs' _ => exact (prefix_of_unknown hs hr hv hs').trans (List.prefix_append ..)
  | .whileAgain hc hs hw =>
    have hc' := (hv.holds _).ok hc
    cases h' with
    | whileStops hc₂ | whileOver hc₂ => cases hc'.symm.trans hc₂
    | whileBreaks _ hs' => cases (hs.unique_of_completes hv hs').1
    | whileAgain _ hs' hw' =>
      -- the pass knew all that it read, so the other run made the same pass
      obtain ⟨-, rfl, hv'⟩ := hs.unique_of_completes hv hs'
      exact (List.prefix_append_right_inj _).mpr (prefix_of_unknown hw hr hv' hw')
  | .conditionHolds hc hs =>
    have hc' := (hv.holds _).ok hc
    cases h' with
    | conditionStops hc₂ | alternative hc₂ | noAlternative hc₂ => cases hc'.symm.trans hc₂
    | conditionHolds _ hs' => exact prefix_of_unknown hs hr hv hs'
  | .alternative hc hs =>
    have hc' := (hv.holds _).ok hc
    cases h' with
    | conditionStops hc₂ | conditionHolds hc₂ => cases hc'.symm.trans hc₂
    | alternative _ hs' => exact prefix_of_unknown hs hr hv hs'

theorem prefix_of_unknown_all {ss : List Stmt} {start vars vars' vars₁ vars₂ : Variables}
    {r r' : Option Failure} {cs cs' : List Command} (h : Stmt.RunsAll ss vars r vars₁ cs) {x : String}
    (hr : r = some (.unknownVariable x)) (hv : Completes start vars vars')
    (h' : Stmt.RunsAll ss vars' r' vars₂ cs') : cs <+: cs' := by
  match h with
  | .nil => exact List.nil_prefix
  | .stops hs =>
    cases h' with
    | stops hs' => exact prefix_of_unknown hs hr hv hs'
    | cons hs' _ => exact (prefix_of_unknown hs hr hv hs').trans (List.prefix_append ..)
  | .cons hs ht =>
    cases h' with
    | stops hs' => cases (hs.unique_of_completes hv hs').1
    | cons hs' ht' =>
      obtain ⟨-, rfl, hv'⟩ := hs.unique_of_completes hv hs'
      exact (List.prefix_append_right_inj _).mpr (prefix_of_unknown_all ht hr hv' ht')

end

/-! ## Programs -/

theorem completes_of_extends {vars vars' : Variables} (hp : vars.policy = .reject)
    (hv : ∀ x v, vars.lookup x = some v → vars'.lookup x = some v) : Completes vars' vars vars' := by
  refine ⟨hp, fun x => ?_⟩
  cases hx : vars.lookup x with
  | none => rfl
  | some v => exact hv x v hx

namespace Program

/-- Let a run that refuses unbound names end. From variables that bind no name otherwise, under any
policy, there is a run that ends the same way and with the same commands, if that is no unknown name;
the variables at the end differ in nothing but what they differed in at first. If it is one then every
run from there begins with these commands. -/
theorem exec_more_known (p : Program) {vars vars' : Variables} (hp : vars.policy = .reject)
    (hv : ∀ x v, vars.lookup x = some v → vars'.lookup x = some v) {limit : Nat} {sink : Array Command}
    {e : Ending (Array Command)} (h : p.exec limit ⟨vars, sink⟩ = some e) :
    ((∀ x, e.failure ≠ some (.unknownVariable x)) →
      ∃ limit' vars₁', p.exec limit' ⟨vars', sink⟩ = some ⟨⟨vars₁', e.machine.sink⟩, e.failure⟩ ∧
        (∀ x v, e.machine.vars.lookup x = some v → vars₁'.lookup x = some v) ∧
        ∀ x, e.machine.vars.lookup x = none → vars₁'.lookup x = vars'.lookup x) ∧
    ((∃ x, e.failure = some (.unknownVariable x)) →
      ∀ limit' e', p.exec limit' ⟨vars', sink⟩ = some e' →
      e.machine.sink.toList <+: e'.machine.sink.toList) := by
  have completes := completes_of_extends hp hv
  obtain ⟨⟨vars₁, sink₁⟩, r⟩ := e
  obtain ⟨cs, hsink, hrun⟩ := follows_of_execAll p.statements h
  dsimp only at hsink hrun ⊢
  constructor
  · intro hr
    obtain ⟨vars₁', hrun', completes'⟩ := runsAll_of_completes hrun hr completes
    obtain ⟨limit', he⟩ := execAll_of_runsAll hrun' sink
    rw [← hsink] at he
    refine ⟨limit', vars₁', he, fun x v hx => ?_, fun x hx => ?_⟩
    · rw [completes'.lookup x, hx, Option.some_or]
    · rw [completes'.lookup x, hx, Option.none_or]
  · rintro ⟨x, hr⟩ limit' e' he
    obtain ⟨cs', hsink', hrun'⟩ := follows_of_execAll p.statements he
    rw [hsink, hsink', Array.toList_append, Array.toList_append, List.prefix_append_right_inj]
    exact prefix_of_unknown_all hrun hr completes hrun'

/-- To know `a` from the start and to read all else as zero changes nothing in a run that only reads
what it has assigned, and leaves the first command of one that goes on to read `a`. -/
theorem exec_more_known_assigned :
    (∃ limit vars₁, (⟨[.assign "b" (.constant .one), .motion .left (.variable "b")]⟩ : Program).exec limit
        ⟨⟨.ofList [("a", .one)], .default .zero⟩, (#[] : Array Command)⟩ =
      some ⟨⟨vars₁, #[.rotate .one]⟩, none⟩ ∧ vars₁.lookup "a" = some .one) ∧
    ∀ limit e, (⟨[.action .home, .motion .left (.variable "a")]⟩ : Program).exec limit
        ⟨⟨.ofList [("a", .one)], .default .zero⟩, (#[] : Array Command)⟩ = some e →
      [.home] <+: e.machine.sink.toList := by
  have known : ∀ x v, Variables.empty.lookup x = some v →
      (⟨.ofList [("a", .one)], .default .zero⟩ : Variables).lookup x = some v := fun _ _ h => nomatch h
  constructor
  · have first : (⟨[.assign "b" (.constant .one), .motion .left (.variable "b")]⟩ : Program).exec 0
          ⟨.empty, (#[] : Array Command)⟩ =
            some ⟨⟨Variables.empty.put "b" .one, #[.rotate .one]⟩, none⟩ := rfl
    obtain ⟨limit, vars₁, he, -, hother⟩ := (exec_more_known _ rfl known first).1 (fun _ => nofun)
    exact ⟨limit, vars₁, he, hother "a" rfl⟩
  · have second : (⟨[.action .home, .motion .left (.variable "a")]⟩ : Program).exec 0
          ⟨.empty, (#[] : Array Command)⟩ = some ⟨⟨.empty, #[.home]⟩, some (.unknownVariable "a")⟩ := rfl
    exact (exec_more_known _ rfl known second).2 ⟨"a", rfl⟩

end Program

end Turtle
