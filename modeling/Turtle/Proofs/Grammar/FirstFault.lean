import Turtle.Proofs.Grammar.Acceptance

/-!
# The first fault

A program is refused at the first answer that no accepted program could have there, with all that a
message says being true, and without a look at what stands behind it.
-/

namespace Turtle

open Grammar

/-! ## Beginnings of programs -/

/-- Some accepted program, with the end of the text behind it, begins with these answers. -/
def Viable (as : List (Except String Token)) : Prop :=
  ∃ ts p, .eot ∉ ts ∧ Program.ofTokens ts = .ok p ∧ as <+: (ts ++ [Token.eot]).map .ok

/-- The answer `k` is no token, or no accepted program begins with the answers up to it. -/
def Faulty (rs : List Reading) (k : Nat) : Prop :=
  (∃ slice, rs[k]?.map Reading.answer = some (.error slice)) ∨ ¬ Viable ((rs.take (k + 1)).map Reading.answer)

/-- `Reported as r e`: behind the answers `as` the reading `r` is refused with `e`, and what `e` asks
for could stand there. -/
inductive Reported (as : List (Except String Token)) : Reading → SyntaxError → Prop
  | invalid {line : Nat} {slice : String} : Reported as ⟨line, .error slice⟩ ⟨line, .invalidCharacter slice⟩
  | unexpected {line : Nat} {t : Token} {kind : Kind} (h : ∀ t', t'.kind = kind → Viable (as ++ [.ok t'])) :
    Reported as ⟨line, .ok t⟩ ⟨line, .unexpectedToken t kind⟩
  | unrecognized {line : Nat} {t : Token} {rule : Rule} (h : ∀ t', rule.Starts t' → Viable (as ++ [.ok t'])) :
    Reported as ⟨line, .ok t⟩ ⟨line, .unrecognizedConstruct t rule⟩

theorem viable_iff {as : List (Except String Token)} :
    Viable as ↔ ∃ ts p, Derives ts p ∧ as <+: (ts ++ [Token.eot]).map .ok := by
  constructor
  · intro h
    obtain ⟨ts, p, hts, hp, ha⟩ := h
    rw [Program.ofTokens_eq_ok_iff, takeWhile_of_not_mem hts] at hp
    exact ⟨ts, p, hp, ha⟩
  · intro h
    obtain ⟨ts, p, hp, ha⟩ := h
    have hts := not_mem_eot_of_derives hp
    refine ⟨ts, p, hts, ?_, ha⟩
    rw [Program.ofTokens_eq_ok_iff, takeWhile_of_not_mem hts]
    exact hp

namespace Viable

variable {as bs : List (Except String Token)}

theorem nil : Viable [] := viable_iff.mpr ⟨[], ⟨[]⟩, .none, List.nil_prefix⟩

theorem shorten (h : as <+: bs) (hb : Viable bs) : Viable as := by
  obtain ⟨ts, p, hts, hp, ha⟩ := hb
  exact ⟨ts, p, hts, hp, h.trans ha⟩

theorem of_derives {w v : List Token} {t : Token} {p : Program} (h : Derives (w ++ t :: v) p) :
    Viable (w.map .ok ++ [.ok t]) := by
  refine viable_iff.mpr ⟨_, p, h, v.map .ok ++ [.ok .eot], ?_⟩
  simp

theorem answer_eq_ok (h : Viable as) {a : Except String Token} (ha : a ∈ as) : ∃ t, a = .ok t := by
  obtain ⟨ts, p, -, -, h⟩ := h
  obtain ⟨t, -, rfl⟩ := List.mem_map.mp (h.subset ha)
  exact ⟨t, rfl⟩

end Viable

theorem not_faulty_iff {rs : List Reading} {k : Nat} :
    ¬ Faulty rs k ↔ Viable ((rs.take (k + 1)).map Reading.answer) := by
  constructor
  · intro h
    exact Classical.not_not.mp fun hv => h (.inr hv)
  · intro hv h
    rcases h with ⟨slice, hs⟩ | h
    · have : Except.error slice ∈ (rs.take (k + 1)).map Reading.answer := by
        apply List.mem_of_getElem? (i := k)
        rw [List.getElem?_map, List.getElem?_take_of_lt (Nat.lt_succ_self k), hs]
      obtain ⟨t, ht⟩ := hv.answer_eq_ok this
      cases ht
    · exact h hv

/-! ## Where the descent stops -/

theorem Kind.exists_token (k : Kind) : ∃ t : Token, t.kind = k := by
  cases k with
  | real => exact ⟨.real default, rfl⟩
  | identifier => exact ⟨.identifier "x", rfl⟩
  | keyword k => exact ⟨.keyword k, rfl⟩
  | symbol s => exact ⟨.symbol s, rfl⟩
  | eot => exact ⟨.eot, rfl⟩

theorem Rule.exists_starts (rule : Rule) : ∃ t, rule.Starts t := by
  cases rule with
  | statement => exact ⟨.keyword .home, rfl⟩
  | elsePart => exact ⟨.keyword .fi, by simp [Starts]⟩
  | factor => exact ⟨.identifier "x", .inl ⟨"x", rfl⟩⟩
  | comparison => exact ⟨_, .less, rfl, rfl⟩

theorem Answers.agrees {α : Type} {n : Nat} {L : List Token → α → Prop} {f : Parser α} {c : Cursor}
    {r : Except SyntaxError (α × Cursor)} (h : Answers n L f c r) (hn : c.left < n) : f c = r := by
  cases h with
  | ok hw _ hf => exact hf _ _ hn hw rfl
  | error hw he _ hf => exact hf _ _ _ hn hw rfl he

namespace Program

theorem read_eq_program {rs : List Reading} {c : Cursor} (hc : Cursor.next 1 rs = .ok c) {limit : Nat}
    (hl : rs.length < limit) : read rs = Parser.program limit c := by
  have := Cursor.left_next hc
  rw [read_eq hc]
  exact (Parser.answers_program (Nat.le_refl _) (by omega)).agrees (by omega)

/-- Behind the readings `us` it is `r` that makes `rs` be refused with `e`. -/
structure Culprit (rs : List Reading) (e : SyntaxError) (bound : Nat) (us : List Reading) (r : Reading) :
    Prop where
  begins : us ++ [r] <+: rs
  viable : Viable (us.map Reading.answer)
  reported : Reported (us.map Reading.answer) r e
  again : ∀ us' r' vs', us'.map Reading.answer = us.map Reading.answer → r'.answer = r.answer →
    (us' ++ r' :: vs').length < bound → read (us' ++ r' :: vs') = .error ⟨r'.line, e.cause⟩

/-! Let the descent stop behind the tokens `w` at the lookahead `t`, wherever it meets them. -/

section
variable {bound : Nat} {w : List Token} {o : Obstacle} {t : Token} (hw : .eot ∉ w)
  (hf : ∀ d d' e, d.left < bound → d.Over w d' → d'.token = t → o.Stops d' e →
    Parser.program bound d = .error e)
include hw hf

theorem read_of_stops {us vs : List Reading} (hu : us.map Reading.answer = w.map .ok)
    (hb : (us ++ vs).length < bound) {d : Cursor} {e : SyntaxError}
    (hv : Cursor.next (lineAfter 1 us) vs = .ok d) (ht : d.token = t) (he : o.Stops d e) :
    read (us ++ vs) = .error e := by
  obtain ⟨c, hc, hw'⟩ := Cursor.exists_over hu hw hv
  have := Cursor.left_next hc
  rw [read_eq_program hc hb]
  exact hf c d e (by omega) hw' ht he

variable {us : List Reading} {r : Reading} (hu : us.map Reading.answer = w.map .ok) (hr : r.answer = .ok t)
include hu hr

theorem culprit_of_stops {cause : SyntaxError.Cause}
    (hs : ∀ d : Cursor, d.token = t → o.Stops d ⟨d.line, cause⟩)
    (hv : Viable (w.map .ok)) (hc : Reported (w.map .ok) ⟨r.line, .ok t⟩ ⟨r.line, cause⟩)
    (rest : List Reading) :
    Culprit (us ++ r :: rest) ⟨r.line, cause⟩ bound us r := by
  refine ⟨⟨rest, by simp⟩, hu ▸ hv, ?_, ?_⟩
  · obtain ⟨line, _⟩ := r
    obtain rfl := hr
    rw [hu]
    exact hc
  · intro us' r' vs' hu' hr' hb
    refine read_of_stops hw hf (hu'.trans hu) hb (d := ⟨t, r'.line, vs'⟩) ?_ rfl (hs _ rfl)
    rw [Cursor.next, hr', hr]

theorem culprit_of_unreadable (ho : o = .unreadable) (ht : t ≠ .eot) (hv : Viable (w.map .ok ++ [.ok t]))
    {r' : Reading} {slice : String} (hr' : r'.answer = .error slice) (rest : List Reading) :
    Culprit (us ++ r :: r' :: rest) ⟨r'.line, .invalidCharacter slice⟩ bound (us ++ [r]) r' := by
  have hus : (us ++ [r]).map Reading.answer = w.map .ok ++ [.ok t] := by
    rw [List.map_append, hu, List.map_singleton, hr]
  refine ⟨⟨rest, by simp⟩, hus ▸ hv, ?_, ?_⟩
  · obtain ⟨line, _⟩ := r'
    obtain rfl := hr'
    exact .invalid
  · intro us' r'' vs' hu' hr'' hb
    -- the lookahead is the last of the answers that were tokens
    obtain ⟨us₁, us₂, rfl, h₁, h₂⟩ := List.map_eq_append_iff.mp (hu'.trans hus)
    obtain ⟨r₁, rfl, hr₁⟩ := List.map_eq_singleton_iff.mp h₂
    rw [List.append_assoc] at hb ⊢
    refine read_of_stops hw hf h₁ hb (d := ⟨t, r₁.line, r'' :: vs'⟩) ?_ rfl ?_
    · rw [List.singleton_append, Cursor.next, hr₁]
    · rw [ho]
      refine ⟨ht, ?_⟩
      rw [Cursor.advance, Cursor.next, hr'', hr']

end

theorem exists_culprit {rs : List Reading} {e : SyntaxError} (h : read rs = .error e)
    (hend : .ok .eot ∈ rs.map Reading.answer) (bound : Nat) : ∃ us r, Culprit rs e bound us r := by
  cases hc : Cursor.next 1 rs with
  | error e₀ =>
    obtain ⟨r, rest, slice, rfl, ha, rfl⟩ := Cursor.next_eq_error hc
    rw [read, hc] at h
    obtain rfl := Except.error.inj h
    obtain ⟨line, _⟩ := r
    obtain rfl := ha
    refine ⟨[], _, ⟨rest, rfl⟩, .nil, .invalid, ?_⟩
    intro us' r' vs' hu hr _
    obtain rfl := List.map_eq_nil_iff.mp hu
    rw [List.nil_append, read, Cursor.next, hr]
    rfl
  | ok c =>
    have := Cursor.left_next hc
    have ha : Answers bound Derives (Parser.program bound) c (Parser.program (rs.length + 1) c) :=
      Parser.answers_program (Nat.le_refl _) (by omega)
    rw [read_eq hc] at h
    rw [h] at ha
    cases ha with
    | @error w o c' _ hw he hx hf =>
      obtain ⟨us, vs, rfl, hu, hv⟩ := hw.exists_readings hc
      have expected : ∀ t, o.Allows c'.token t → Viable (w.map .ok ++ [.ok t]) := by
        intro t ht
        obtain ⟨v, p, hp⟩ := hx t ht
        exact .of_derives hp
      have viable : ∀ t, o.Allows c'.token t → Viable (w.map .ok) :=
        fun t ht => .shorten (List.prefix_append ..) (expected t ht)
      rcases Cursor.next_eq_ok hv with ⟨rfl, -⟩ | ⟨r, hr, hl, rfl⟩
      -- had all readings been taken then the end of the text would be among the tokens taken
      · rw [List.append_nil, hu] at hend
        obtain ⟨t, ht, he⟩ := List.mem_map.mp hend
        exact absurd (Except.ok.inj he ▸ ht) hw.not_mem_eot
      cases o with
      | mismatch kind =>
        obtain rfl : e = ⟨c'.line, .unexpectedToken c'.token kind⟩ := he
        obtain ⟨t, ht⟩ := kind.exists_token
        have culprit := culprit_of_stops hw.not_mem_eot hf hu hr (fun _ hd => hd ▸ rfl) (viable t ht)
          (.unexpected expected) c'.rest
        rw [hl] at culprit
        exact ⟨us, r, culprit⟩
      | unrecognized rule =>
        obtain rfl : e = ⟨c'.line, .unrecognizedConstruct c'.token rule⟩ := he
        obtain ⟨t, ht⟩ := rule.exists_starts
        have culprit := culprit_of_stops hw.not_mem_eot hf hu hr (fun _ hd => hd ▸ rfl) (viable t ht)
          (.unrecognized expected) c'.rest
        rw [hl] at culprit
        exact ⟨us, r, culprit⟩
      | unreadable =>
        obtain ⟨ht, ha⟩ := he
        obtain ⟨r', rest, slice, hrest, hr', rfl⟩ := Cursor.next_eq_error ha
        rw [hrest]
        exact ⟨_, _, culprit_of_unreadable hw.not_mem_eot hf hu hr rfl ht (expected _ rfl) hr' rest⟩

theorem read_of_answers {rs rs' : List Reading} {e : SyntaxError} (h : read rs = .error e)
    (hend : .ok .eot ∈ rs.map Reading.answer) (same : rs'.map Reading.answer = rs.map Reading.answer) :
    ∃ (i : Nat) (r r' : Reading), rs[i]? = some r ∧ rs'[i]? = some r' ∧ e.line = r.line ∧
      read rs' = .error ⟨r'.line, e.cause⟩ := by
  have size : rs'.length = rs.length := by
    have lengths := congrArg List.length same
    rwa [List.length_map, List.length_map] at lengths
  obtain ⟨us, r, culprit⟩ := exists_culprit h hend (rs.length + 1)
  obtain ⟨vs, rfl⟩ := culprit.begins
  rw [List.append_assoc, List.singleton_append] at h culprit same size ⊢
  rw [List.map_append, List.map_cons] at same
  obtain ⟨us', rest, rfl, hu, hrest⟩ := List.map_eq_append_iff.mp same
  obtain ⟨r', vs', rfl, hr, -⟩ := List.map_eq_cons_iff.mp hrest
  have here := culprit.again us r vs rfl rfl (Nat.lt_succ_self _)
  have there := culprit.again us' r' vs' hu hr (size ▸ Nat.lt_succ_self _)
  have place : us'.length = us.length := by
    have lengths := congrArg List.length hu
    rwa [List.length_map, List.length_map] at lengths
  refine ⟨us.length, r, r', by simp, by simp [← place], ?_, there⟩
  exact congrArg SyntaxError.line (Except.error.inj (h.symm.trans here))

theorem Culprit.at_first_fault {rs us : List Reading} {e : SyntaxError} {bound k : Nat} {r : Reading}
    (h : Culprit rs e bound us r) {ts : List Token} {p : Program} (hp : Derives ts p)
    (hts : (rs.take k).map Reading.answer <+: (ts ++ [Token.eot]).map .ok) (hb : ts.length + 1 < bound)
    (hk : Faulty rs k) : us = rs.take k ∧ rs[k]? = some r := by
  have hus : us <+: rs := (List.prefix_append ..).trans h.begins
  have not_before : ¬ k < us.length := by
    intro hlt
    refine absurd hk (not_faulty_iff.mpr (.shorten ?_ h.viable))
    refine List.IsPrefix.map _ (List.prefix_of_prefix_length_le (List.take_prefix ..) hus ?_)
    rw [List.length_take]; omega
  have not_behind : ¬ us.length < k := by
    intro hlt
    have hr : us ++ [r] <+: rs.take k := by
      apply List.prefix_of_prefix_length_le h.begins (List.take_prefix ..)
      have := h.begins.length_le
      rw [List.length_append, List.length_singleton] at this ⊢
      rw [List.length_take]; omega
    obtain ⟨v, hv⟩ := (List.IsPrefix.map Reading.answer hr).trans hts
    rw [List.map_append, List.map_singleton, List.append_assoc, List.singleton_append] at hv
    -- the accepted program, an answer a reading, would be refused as well
    have answers : ((us.map Reading.answer).map (Reading.mk 1) ++ ⟨1, r.answer⟩ :: v.map (Reading.mk 1)).map
        Reading.answer = (ts ++ [Token.eot]).map .ok := by
      rw [List.map_append, List.map_cons, answers_mk, answers_mk, hv]
    have again := h.again ((us.map Reading.answer).map (Reading.mk 1)) ⟨1, r.answer⟩ (v.map (Reading.mk 1))
      (answers_mk ..) rfl (by have := congrArg List.length answers; simp at this ⊢; omega)
    have accepted := (ofReadings_eq_ok_iff_derives answers (p := p)).mpr (by
      rw [takeWhile_append_eot, takeWhile_of_not_mem (not_mem_eot_of_derives hp)]
      exact hp)
    rw [ofReadings, again] at accepted
    cases accepted
  obtain rfl : us.length = k := by omega
  obtain ⟨vs, rfl⟩ := h.begins
  simp

section
variable {rs : List Reading} {n : Nat} (hn : rs[n]?.map Reading.answer = some (.ok .eot))
include hn

theorem mem_eot : .ok .eot ∈ rs.map Reading.answer := by
  apply List.mem_of_getElem? (i := n)
  rw [List.getElem?_map, hn]

theorem read_of_viable (hv : Viable ((rs.take (n + 1)).map Reading.answer)) :
    ∃ r p, rs[n]? = some r ∧ ∀ rest, read (rs.take (n + 1) ++ rest) = .ok (p, ⟨.eot, r.line, rest⟩) := by
  obtain ⟨r, hr, ha⟩ := Option.map_eq_some_iff.mp hn
  have htake : rs.take (n + 1) = rs.take n ++ [r] := by
    rw [List.take_add_one, hr]; rfl
  obtain ⟨ts, p, hp, hts⟩ := viable_iff.mp hv
  rw [htake, List.map_append, List.map_append, List.map_singleton, List.map_singleton, ha] at hts
  have hts : (rs.take n).map Reading.answer = ts.map .ok := by
    rcases List.prefix_concat_iff.mp hts with h | h
    · exact List.append_cancel_right h
    · obtain ⟨t, ht, he⟩ := List.mem_map.mp (h.subset (List.mem_append_right _ (List.mem_singleton_self _)))
      exact absurd (Except.ok.inj he ▸ ht) (not_mem_eot_of_derives hp)
  refine ⟨r, p, hr, fun rest => read_eq_ok_iff.mpr ⟨ts, rs.take n, r :: rest, ?_, hts, hp, ?_, rfl⟩⟩
  · rw [htake, List.append_assoc, List.singleton_append]
  · rw [Cursor.next, ha]

variable (hfirst : ∀ i < n, rs[i]?.map Reading.answer ≠ some (.ok .eot))
include hfirst

theorem viable_of_read {p : Program} {c : Cursor} (h : read rs = .ok (p, c)) {k : Nat} (hk : k ≤ n) :
    Viable ((rs.take (k + 1)).map Reading.answer) := by
  have hend := mem_eot hn
  obtain ⟨w, us, vs, rfl, hu, hp, hv, ht⟩ := read_eq_ok_iff.mp h
  rcases Cursor.next_eq_ok hv with ⟨rfl, -⟩ | ⟨r, ha, -, rfl⟩
  · rw [List.append_nil, hu] at hend
    obtain ⟨t, ht, he⟩ := List.mem_map.mp hend
    exact absurd (Except.ok.inj he ▸ ht) (not_mem_eot_of_derives hp)
  · rw [ht] at ha
    have hle : n ≤ us.length := by
      refine Nat.le_of_not_lt fun hlt => hfirst us.length hlt ?_
      simp [ha]
    have hpre : (us ++ r :: c.rest).take (k + 1) <+: us ++ [r] := by
      refine List.prefix_of_prefix_length_le (List.take_prefix ..) ⟨c.rest, by simp⟩ ?_
      simp only [List.length_take, List.length_append, List.length_singleton]; omega
    have := List.IsPrefix.map Reading.answer hpre
    rw [List.map_append, List.map_singleton, hu, ha, ← List.map_singleton, ← List.map_append] at this
    exact viable_iff.mpr ⟨w, p, hp, this⟩

theorem read_of_first_fault {k : Nat} (hk : k ≤ n) (hf : Faulty rs k) (hs : ∀ j < k, ¬ Faulty rs j) :
    ∃ r e, rs[k]? = some r ∧ Reported ((rs.take k).map Reading.answer) r e ∧ read rs = .error e ∧
      ∀ r' rest, r'.answer = r.answer → read (rs.take k ++ r' :: rest) = .error ⟨r'.line, e.cause⟩ := by
  have viable : Viable ((rs.take k).map Reading.answer) := by
    cases k with
    | zero => exact .nil
    | succ j => exact not_faulty_iff.mp (hs j (Nat.lt_succ_self j))
  cases h : read rs with
  | ok r => exact absurd hf (not_faulty_iff.mpr (viable_of_read hn hfirst h hk))
  | error e =>
    obtain ⟨ts, p, hp, hts⟩ := viable_iff.mp viable
    obtain ⟨us, r, hc⟩ := exists_culprit h (mem_eot hn) (ts.length + 2)
    obtain ⟨rfl, hr⟩ := hc.at_first_fault hp hts (by omega) hf
    refine ⟨r, e, hr, hc.reported, rfl, ?_⟩
    intro r' rest hr'
    -- the bound on what stands behind is chosen only now
    obtain ⟨us, r₁, hc⟩ := exists_culprit h (mem_eot hn) (ts.length + k + rest.length + 2)
    obtain ⟨rfl, hr₁⟩ := hc.at_first_fault hp hts (by omega) hf
    obtain rfl := Option.some.inj (hr.symm.trans hr₁)
    apply hc.again (rs.take k) r' rest rfl hr'
    rw [List.length_append, List.length_cons, List.length_take]
    omega

/-- Let the answer `n` be the first end of the text. If no answer up to there is a fault then a program
is read, and what stands behind that end is left alone. Otherwise the first fault is refused. That is
read, since the error bears its line, whichever it is, and nothing behind it is. -/
theorem read_first_fault :
    ((∀ k ≤ n, ¬ Faulty rs k) →
      ∃ r p, rs[n]? = some r ∧ ∀ rest, read (rs.take (n + 1) ++ rest) = .ok (p, ⟨.eot, r.line, rest⟩)) ∧
    (∀ k ≤ n, Faulty rs k → (∀ j < k, ¬ Faulty rs j) →
      ∃ r e, rs[k]? = some r ∧ Reported ((rs.take k).map Reading.answer) r e ∧ read rs = .error e ∧
        ∀ r' rest, r'.answer = r.answer → read (rs.take k ++ r' :: rest) = .error ⟨r'.line, e.cause⟩) := by
  constructor
  · intro hs
    exact read_of_viable hn (not_faulty_iff.mp (hs n (Nat.le_refl n)))
  · intro k hk hf hs
    exact read_of_first_fault hn hfirst hk hf hs

end

/-- Behind `HOME` a question mark is refused on its own line, and nothing else that stands there matters. -/
theorem read_first_fault_home :
    ∃ cause, Reported [.ok (.keyword .home)] ⟨2, .error "?"⟩ ⟨2, cause⟩ ∧
      ∀ line rest, read (⟨1, .ok (.keyword .home)⟩ :: ⟨line, .error "?"⟩ :: rest) = .error ⟨line, cause⟩ := by
  have home : Viable [.ok (.keyword .home)] :=
    ⟨[.keyword .home], ⟨[.block [.action .home]]⟩, by decide, rfl, [.ok .eot], rfl⟩
  have early : ∀ i < 2, ([⟨1, .ok (.keyword .home)⟩, ⟨2, .error "?"⟩, ⟨2, .ok .eot⟩] : List Reading)[i]?.map
      Reading.answer ≠ some (.ok .eot) := by
    intro i hi
    match i, hi with
    | 0, _ => simp
    | 1, _ => simp
  obtain ⟨r, e, hr, he, -, hread⟩ := (@read_first_fault _ 2 rfl early).2 1 (by decide) (.inl ⟨"?", rfl⟩) (by
    intro j hj
    obtain rfl : j = 0 := by omega
    exact not_faulty_iff.mpr home)
  obtain rfl := Option.some.inj hr
  cases he with
  | invalid => exact ⟨_, .invalid, fun line rest => hread ⟨line, _⟩ rest rfl⟩

end Program

end Turtle
