import Turtle.Proofs.Lexing.LineBreak

/-!
# One request after the other

A source of tokens as it is asked: it stands somewhere in its text, and each request moves it on.
`Passed`: at every moment the lexemes behind it are the text up to there, the answers given so far are
those of these lexemes, and the line is the one that the text up to there ends on. `exists_first_eot`:
the readings are the answers to the requests, up to the first end of the text.
-/

namespace Turtle

structure Lexer where
  line : Nat
  rest : List Char

namespace Lexer

/-- One request: what separates tokens is passed over, and the first lexeme that is
anything else is answered. -/
def request (line : Nat) : List Char → Reading × Lexer
  | [] => (⟨line, .ok .eot⟩, ⟨line, []⟩)
  | c :: cs =>
    let l := (Lexeme.scan c cs).1
    match l.answer? with
    | none => request (line + l.lineEnds) (Lexeme.scan c cs).2
    | some a => (⟨line + l.lineEnds, a⟩, ⟨line + l.lineEnds, (Lexeme.scan c cs).2⟩)
termination_by cs => cs.length
decreasing_by exact Lexeme.length_scan_lt c cs

def next (x : Lexer) : Reading × Lexer := request x.line x.rest

def after (source : String) : Nat → Lexer
  | 0 => ⟨1, source.toList⟩
  | n + 1 => (after source n).next.2

/-- What a source answers to a request, the first being request 0. -/
def answered (source : String) (n : Nat) : Reading := (after source n).next.1

end Lexer

theorem Lexeme.lineEnds_of_answer? {l : Lexeme} {a : Except String Token} (h : l.answer? = some a) :
    l.lineEnds = 0 := by
  obtain ⟨t?, text⟩ := l
  match t? with
  | none => rfl
  | some (.filler _) => cases h
  | some (.real _) | some (.identifier _) | some (.keyword _) | some (.symbol _) | some .eot => rfl

namespace Lexer

/-! ## One request -/

theorem lexemes_nil : lexemes [] = [] := by rw [lexemes]

/-- The lexemes that a request passes: separators, and then the lexeme that it answers or nothing but
the end. -/
inductive Passage : List Lexeme → Except String Token → List Char → Prop
  | lexeme {fs : List Lexeme} {l : Lexeme} {a : Except String Token} {r : List Char}
    (hf : ∀ f ∈ fs, f.answer? = none) (hl : l.answer? = some a) : Passage (fs ++ [l]) a r
  | ended {fs : List Lexeme} (hf : ∀ f ∈ fs, f.answer? = none) : Passage fs (.ok .eot) []

namespace Passage

variable {ls : List Lexeme} {a : Except String Token} {r : List Char}

theorem cons {l : Lexeme} (hl : l.answer? = none) (h : Passage ls a r) : Passage (l :: ls) a r := by
  cases h with
  | lexeme hf hl' => exact .lexeme (List.forall_mem_cons.mpr ⟨hl, hf⟩) hl'
  | ended hf => exact .ended (List.forall_mem_cons.mpr ⟨hl, hf⟩)

theorem split (h : Passage ls a r) :
    (∃ fs l, ls = fs ++ [l] ∧ fs.filterMap Lexeme.answer? = [] ∧ l.answer? = some a) ∨
      ls.filterMap Lexeme.answer? = [] ∧ a = .ok .eot ∧ r = [] := by
  cases h with
  | lexeme hf hl => exact .inl ⟨_, _, rfl, List.filterMap_eq_nil_iff.mpr hf, hl⟩
  | ended hf => exact .inr ⟨List.filterMap_eq_nil_iff.mpr hf, rfl, rfl⟩

/-- A separator comes last only where the text ends. -/
theorem last (h : Passage ls a r) {passed : List Lexeme} {l : Lexeme} (hl : l ∈ (passed ++ ls).getLast?)
    (hn : l.answer? = none) : r = [] := by
  cases h with
  | lexeme hf hl' =>
    rw [← List.append_assoc, List.getLast?_concat] at hl
    obtain rfl := Option.some.inj hl
    cases hl'.symm.trans hn
  | ended => rfl

end Passage

structure Passes (x : Lexer) (passed : List Lexeme) (r : Reading) (x' : Lexer) : Prop where
  cut : lexemes x.rest = passed ++ lexemes x'.rest
  line : x'.line = x.line + (passed.map Lexeme.lineEnds).sum
  told : r.line = x'.line
  answer : Passage passed r.answer x'.rest

theorem exists_passes (x : Lexer) : ∃ passed, x.Passes passed x.next.1 x.next.2 := by
  obtain ⟨line, cs⟩ := x
  unfold next
  fun_induction request line cs with
  | case1 line => exact ⟨[], by rw [lexemes]; rfl, rfl, rfl, .ended (List.forall_mem_nil _)⟩
  | case2 line c cs l hl ih =>
    obtain ⟨passed, h⟩ := ih
    refine ⟨l :: passed, ?_, ?_, h.told, h.answer.cons hl⟩
    · rw [lexemes, List.cons_append, ← h.cut]
    · rw [h.line, List.map_cons, List.sum_cons, Nat.add_assoc]
  | case3 line c cs l a hl =>
    refine ⟨[l], ?_, rfl, rfl, .lexeme (List.forall_mem_nil _) hl⟩
    rw [lexemes]
    rfl

theorem Passes.rest_ne_nil {x x' : Lexer} {new : List Lexeme} {r : Reading} (h : x.Passes new r x')
    (hn : new ≠ []) :
    x.rest ≠ [] := by
  intro hr
  have cut := h.cut
  rw [hr, lexemes_nil, eq_comm, List.append_eq_nil_iff] at cut
  exact hn cut.1

/-! ## Many requests -/

/-- These lexemes are behind a source after `n` requests. -/
structure Passed (source : String) (n : Nat) (passed : List Lexeme) : Prop where
  cut : lexemes source.toList = passed ++ lexemes (after source n).rest
  tiles : passed.flatMap Lexeme.text ++ (after source n).rest = source.toList
  line : (after source n).line = 1 + (passed.flatMap Lexeme.text).count '\n'
  answers : ∃ ends, (List.range n).map (fun i => (answered source i).answer) =
    passed.filterMap Lexeme.answer? ++ List.replicate ends (.ok .eot) ∧
    (ends ≠ 0 → (after source n).rest = [])
  last : ∀ l ∈ passed.getLast?, l.answer? = none → (after source n).rest = []

variable {source : String}

theorem passed_start : Passed source 0 [] where
  cut := rfl
  tiles := rfl
  line := rfl
  answers := ⟨0, rfl, fun h => absurd rfl h⟩
  last := fun _ h => nomatch h

theorem Passed.answers_eq {n : Nat} {passed : List Lexeme} (h : Passed source n passed)
    (hr : (after source n).rest ≠ []) :
    (List.range n).map (fun i => (answered source i).answer) = passed.filterMap Lexeme.answer? := by
  obtain ⟨ends, answers, hends⟩ := h.answers
  obtain rfl : ends = 0 := by
    by_contra he
    exact hr (hends he)
  rw [answers, List.replicate_zero, List.append_nil]

theorem Passed.step {n : Nat} {passed new : List Lexeme} (h : Passed source n passed)
    (hn : (after source n).Passes new (answered source n) (after source (n + 1))) :
    Passed source (n + 1) (passed ++ new) := by
  have cut : lexemes source.toList = passed ++ new ++ lexemes (after source (n + 1)).rest := by
    rw [h.cut, hn.cut, List.append_assoc]
  have counted : ∀ l ∈ new, l.lineEnds = l.text.count '\n' := by
    intro l hl
    have mem : l ∈ lexemes source.toList := by
      rw [cut]
      exact List.mem_append_left _ (List.mem_append_right _ hl)
    exact lineEnds_of_mem mem
  refine ⟨cut, ?_, ?_, ?_, ?_⟩
  · have text := congrArg (List.flatMap Lexeme.text) cut
    rwa [flatMap_text_lexemes, List.flatMap_append, flatMap_text_lexemes, eq_comm] at text
  · rw [hn.line, h.line, sum_lineEnds counted, List.flatMap_append, List.count_append, Nat.add_assoc]
  · rw [List.range_succ, List.map_append, List.map_singleton, List.filterMap_append]
    rcases hn.answer.split with ⟨fs, l, rfl, hf, hl⟩ | ⟨hnew, ha, hr⟩
    · refine ⟨0, ?_, fun h => absurd rfl h⟩
      rw [h.answers_eq (hn.rest_ne_nil (by simp)), List.filterMap_append, hf, List.filterMap_cons, hl]
      simp
    · obtain ⟨ends, answers, -⟩ := h.answers
      refine ⟨ends + 1, ?_, fun _ => hr⟩
      rw [answers, hnew, ha, List.append_nil, List.append_assoc, List.replicate_succ']
  · exact fun l hl => hn.answer.last hl

theorem exists_passed (source : String) (n : Nat) : ∃ passed, Passed source n passed := by
  induction n with
  | zero => exact ⟨[], passed_start⟩
  | succ n ih =>
    obtain ⟨passed, h⟩ := ih
    obtain ⟨new, hn⟩ := exists_passes (after source n)
    exact ⟨passed ++ new, h.step hn⟩

/-! ## The end of the text -/

theorem eot_not_mem {n : Nat} {new : List Lexeme} {r : Reading} {x : Lexer}
    (h : (after source n).Passes new r x) :
    .ok .eot ∉ new.filterMap Lexeme.answer? := by
  intro hm
  have mem : .ok .eot ∈ answersOf (after source n).rest := by
    rw [answersOf, h.cut, List.filterMap_append]
    exact List.mem_append_left _ hm
  exact isSpelled_of_mem mem

theorem rest_of_answered_eot {n : Nat} (h : (answered source n).answer = .ok .eot) :
    (after source (n + 1)).rest = [] := by
  obtain ⟨new, hn⟩ := exists_passes (after source n)
  rcases hn.answer.split with ⟨fs, l, rfl, -, hl⟩ | ⟨-, -, hr⟩
  · refine absurd (List.mem_filterMap.mpr ⟨l, List.mem_append_right _ (List.mem_singleton_self l), ?_⟩)
      (eot_not_mem hn)
    rw [hl, ← h]
    rfl
  · exact hr

theorem line_answered (source : String) (n : Nat) :
    (answered source n).line = (after source (n + 1)).line := by
  obtain ⟨new, h⟩ := exists_passes (after source n)
  exact h.told

section
variable {n : Nat} (h : (after source n).rest = [])
include h

theorem line_of_rest : (after source n).line = 1 + source.toList.count '\n' := by
  obtain ⟨passed, hp⟩ := exists_passed source n
  have text := hp.tiles
  rw [h, List.append_nil] at text
  rw [hp.line, text]

theorem next_of_rest : (after source n).next = (⟨(after source n).line, .ok .eot⟩, after source n) := by
  rw [next, h, request, ← h]

theorem after_of_rest {m : Nat} (hm : n ≤ m) : after source m = after source n := by
  induction m, hm using Nat.le_induction with
  | base => rfl
  | succ m _ ih => rw [after, ih, next_of_rest h]

end

theorem answered_of_eot {k : Nat} (h : (answered source k).answer = .ok .eot) {n : Nat} (hn : k ≤ n) :
    answered source n = ⟨1 + source.toList.count '\n', .ok .eot⟩ := by
  have rest := rest_of_answered_eot h
  rcases Nat.eq_or_lt_of_le hn with rfl | hlt
  · rw [← h, ← line_of_rest rest, ← line_answered]
  · rw [answered, after_of_rest rest hlt, next_of_rest rest, line_of_rest rest]

/-- An answer is that of a lexeme behind all that were answered before, and bears the line on which this
lexeme begins. When none is left it is the end of the text. -/
theorem answered_cases (source : String) (n : Nat) :
    (∃ us l vs, lexemes source.toList = us ++ l :: vs ∧
      us.filterMap Lexeme.answer? = (List.range n).map (fun i => (answered source i).answer) ∧
      l.answer? = some (answered source n).answer ∧
      (answered source n).line = 1 + (us.flatMap Lexeme.text).count '\n') ∨
    answered source n = ⟨1 + source.toList.count '\n', .ok .eot⟩ := by
  obtain ⟨passed, hp⟩ := exists_passed source n
  obtain ⟨new, hn⟩ := exists_passes (after source n)
  have told : (answered source n).line = (after source (n + 1)).line := hn.told
  rcases hn.answer.split with ⟨fs, l, rfl, hf, hl⟩ | ⟨-, ha, -⟩
  · have cut : lexemes source.toList = (passed ++ fs) ++ l :: lexemes (after source (n + 1)).rest := by
      rw [hp.cut, hn.cut]
      simp [after]
    have counted : ∀ l ∈ passed ++ fs, l.lineEnds = l.text.count '\n' := fun _ hm =>
      lineEnds_of_mem (cut ▸ List.mem_append_left _ hm)
    refine .inl ⟨passed ++ fs, l, _, cut, ?_, hl, ?_⟩
    · rw [List.filterMap_append, hf, List.append_nil, hp.answers_eq (hn.rest_ne_nil (by simp))]
    · have line : (after source (n + 1)).line = _ := hn.line
      rw [told, line, hp.line, List.flatMap_append, List.count_append, List.map_append, List.sum_append,
        sum_lineEnds fun l hm => counted l (List.mem_append_right _ hm), List.map_singleton,
        List.sum_singleton, Lexeme.lineEnds_of_answer? hl]
      omega
  · exact .inr (answered_of_eot ha (Nat.le_refl n))

/-! ## Readings are answers -/

theorem readingsOf_separators (line : Nat) {fs : List Lexeme} (h : ∀ f ∈ fs, f.answer? = none)
    (ls : List Lexeme) :
    readingsOf line (fs ++ ls) = readingsOf (line + (fs.map Lexeme.lineEnds).sum) ls := by
  have none : (readingsOf line fs).dropLast = [] := by
    apply List.map_eq_nil_iff.mp
    rw [answers_dropLast]
    exact List.filterMap_eq_nil_iff.mpr h
  rw [readingsOf_append, none]
  rfl

theorem readingsOf_passage (line : Nat) {ls : List Lexeme} {a : Except String Token} {r : List Char}
    (h : Passage ls a r) (hs : .ok .eot ∉ ls.filterMap Lexeme.answer?) :
    readingsOf line (ls ++ lexemes r) = ⟨line + (ls.map Lexeme.lineEnds).sum, a⟩ ::
      if a = .ok .eot then [] else readingsOf (line + (ls.map Lexeme.lineEnds).sum) (lexemes r) := by
  cases h with
  | ended hf =>
    rw [lexemes_nil, readingsOf_separators line hf, if_pos rfl]
    rfl
  | @lexeme fs l _ _ hf hl =>
    have spelled : a ≠ .ok .eot := by
      rintro rfl
      exact hs (List.mem_filterMap.mpr ⟨l, List.mem_append_right _ (List.mem_singleton_self _), hl⟩)
    rw [if_neg spelled, List.append_assoc, readingsOf_separators line hf, List.singleton_append,
      readingsOf_cons, hl,
      List.map_append, List.sum_append, List.map_singleton, List.sum_singleton, Lexeme.lineEnds_of_answer? hl]
    rfl

theorem readingsOf_after (source : String) (n : Nat) :
    readingsOf (after source n).line (lexemes (after source n).rest) = answered source n ::
      if (answered source n).answer = .ok .eot then []
      else readingsOf (after source (n + 1)).line (lexemes (after source (n + 1)).rest) := by
  obtain ⟨new, h⟩ := exists_passes (after source n)
  have told : (⟨(after source (n + 1)).line, (answered source n).answer⟩ : Reading) = answered source n := by
    rw [← line_answered]
  rw [h.cut, readingsOf_passage _ h.answer (eot_not_mem h), ← h.line]
  exact congrArg (· :: _) told

theorem readings_eq_append {n : Nat} (h : ∀ i < n, (answered source i).answer ≠ .ok .eot) :
    readings source = (List.range n).map (answered source) ++
      readingsOf (after source n).line (lexemes (after source n).rest) := by
  induction n with
  | zero => rfl
  | succ n ih =>
    rw [ih fun i hi => h i (Nat.lt_succ_of_lt hi), readingsOf_after, if_neg (h n (Nat.lt_succ_self n)),
      List.range_succ, List.map_append, List.append_assoc]
    rfl

theorem length_answersOf_le (cs : List Char) : (answersOf cs).length ≤ cs.length := by
  have texts (c : Char) (cs : List Char) := Lexeme.length_scan_lt c cs
  refine Nat.le_trans (List.length_filterMap_le _ _) ?_
  induction cs using lexemes.induct with
  | case1 => simp [lexemes]
  | case2 c cs ih =>
    have := texts c cs
    rw [lexemes, List.length_cons]
    omega

/-- The readings of a source are its answers up to the first end of the text, which comes after no more
answers than the source has characters. -/
theorem exists_first_eot (source : String) : ∃ k ≤ source.length,
    (∀ n < k, (answered source n).answer ≠ .ok .eot) ∧ (answered source k).answer = .ok .eot ∧
      readings source = (List.range (k + 1)).map (answered source) := by
  have bound {n : Nat} (h : ∀ i < n, (answered source i).answer ≠ .ok .eot) : n ≤ source.length := by
    have lengths := congrArg List.length (readings_eq_append h)
    have := length_answersOf_le source.toList
    rw [length_readings, readingsOf_after] at lengths
    rw [String.length_toList] at this
    simp at lengths
    omega
  have ends : ∃ k, (answered source k).answer = .ok .eot := by
    by_contra hn
    have := bound (n := source.length + 1) fun i _ hi => hn ⟨i, hi⟩
    omega
  classical
  have before : ∀ i < Nat.find ends, (answered source i).answer ≠ .ok .eot := fun i hi => Nat.find_min ends hi
  refine ⟨Nat.find ends, bound before, before, Nat.find_spec ends, ?_⟩
  rw [readings_eq_append before, readingsOf_after, if_pos (Nat.find_spec ends), List.range_succ,
    List.map_append]
  rfl

end Lexer

end Turtle
