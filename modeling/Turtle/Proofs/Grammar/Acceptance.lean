import Turtle.Proofs.Grammar.Completeness
import Turtle.Proofs.Grammar.Soundness

/-!
# What is accepted

A list of tokens is read as a program if and only if it derives that program, and then it derives no other.
-/

namespace Turtle

open Grammar

/-! ## The tokens that make up programs -/

def Token.isContent : Token → Bool
  | .filler _ | .eot => false
  | _ => true

namespace Grammar

theorem content_of_phrase {k : Rank} {w : List Token} {e : Expr} (h : Phrase k w e) :
    ∀ t ∈ w, t.isContent = true := by
  have op (op : Operator) : op.token.isContent = true := by cases op <;> rfl
  induction h with
  | operand _ _ ih | comparison _ _ ih => exact ih
  | joined _ _ _ _ ihl ihr | compared _ _ _ ihl ihr =>
    simp only [List.forall_mem_append, List.forall_mem_cons]
    exact ⟨ihl, op _, ihr⟩
  | plus _ ih | minus _ ih | not _ ih =>
    rw [List.forall_mem_cons]
    exact ⟨rfl, ih⟩
  | parens _ ih | condition _ ih =>
    simp only [List.forall_mem_append, List.forall_mem_cons]
    exact ⟨⟨rfl, ih⟩, rfl, by simp⟩
  | name | number => simp [Token.isContent]

mutual

theorem content_of_statement {w : List Token} {s : Stmt} (h : Statement w s) :
    ∀ t ∈ w, t.isContent = true := by
  match h with
  | .assign h =>
    simp only [List.forall_mem_cons]
    exact ⟨rfl, rfl, content_of_phrase h⟩
  | .while hc hs =>
    simp only [List.forall_mem_append, List.forall_mem_cons]
    exact ⟨⟨⟨rfl, content_of_phrase hc⟩, rfl, content_of_block hs⟩, rfl, by simp⟩
  | .if h =>
    rw [List.forall_mem_cons]
    exact ⟨rfl, content_of_arm h⟩
  | .action => simp [Token.isContent]
  | .motion h =>
    rw [List.forall_mem_cons]
    exact ⟨rfl, content_of_phrase h⟩

theorem content_of_arm {w : List Token} {s : Stmt} (h : Arm w s) : ∀ t ∈ w, t.isContent = true := by
  match h with
  | .arm hc hs ho =>
    simp only [List.forall_mem_append, List.forall_mem_cons]
    exact ⟨⟨content_of_phrase hc, rfl, content_of_block hs⟩, content_of_elsePart ho⟩

theorem content_of_elsePart {w : List Token} {o : Option Stmt} (h : ElsePart w o) :
    ∀ t ∈ w, t.isContent = true := by
  match h with
  | .elsif h =>
    rw [List.forall_mem_cons]
    exact ⟨rfl, content_of_arm h⟩
  | .else h =>
    simp only [List.forall_mem_append, List.forall_mem_cons]
    exact ⟨⟨rfl, content_of_block h⟩, rfl, by simp⟩
  | .fi => simp [Token.isContent]

theorem content_of_block {w : List Token} {s : Stmt} (h : Block w s) : ∀ t ∈ w, t.isContent = true := by
  match h with
  | .block h => exact content_of_statements h

theorem content_of_statements {w : List Token} {ss : List Stmt} (h : Statements w ss) :
    ∀ t ∈ w, t.isContent = true := by
  match h with
  | .one h => exact content_of_statement h
  | .more h hs =>
    rw [List.forall_mem_append]
    exact ⟨content_of_statement h, content_of_statements hs⟩

end

theorem content_of_blocks {w : List Token} {ss : List Stmt} (h : Blocks w ss) :
    ∀ t ∈ w, t.isContent = true := by
  induction h with
  | none => simp
  | more h _ _ ih =>
    rw [List.forall_mem_append]
    exact ⟨content_of_block h, ih⟩

theorem not_mem_eot_of_derives {w : List Token} {p : Program} (h : Derives w p) : .eot ∉ w :=
  fun he => Bool.false_ne_true (content_of_blocks h _ he)

theorem takeWhile_append_of_not_mem {w : List Token} (h : .eot ∉ w) (v : List Token) :
    (w ++ v).takeWhile (· ≠ .eot) = w ++ v.takeWhile (· ≠ .eot) := by
  apply List.takeWhile_append_of_pos
  intro t ht
  have : t ≠ .eot := fun he => h (by rwa [he] at ht)
  simpa

theorem takeWhile_of_not_mem {w : List Token} (h : .eot ∉ w) : w.takeWhile (· ≠ .eot) = w := by
  have := takeWhile_append_of_not_mem h []
  rwa [List.append_nil, List.takeWhile_nil, List.append_nil] at this

theorem takeWhile_append_eot (ts : List Token) :
    (ts ++ [Token.eot]).takeWhile (· ≠ .eot) = ts.takeWhile (· ≠ .eot) := by
  induction ts with
  | nil => rfl
  | cons t ts ih => rw [List.cons_append, List.takeWhile_cons, List.takeWhile_cons, ih]

end Grammar

/-! ## Cursors over readings -/

def lineAfter (line : Nat) (rs : List Reading) : Nat := rs.foldl (fun _ r => r.line) line

namespace Cursor

theorem exists_over {us vs : List Reading} {w : List Token} {line : Nat} {c' : Cursor}
    (hu : us.map Reading.answer = w.map .ok) (hw : .eot ∉ w) (hv : next (lineAfter line us) vs = .ok c') :
    ∃ c, next line (us ++ vs) = .ok c ∧ c.Over w c' := by
  induction us generalizing w line with
  | nil =>
    obtain rfl := List.map_eq_nil_iff.mp hu.symm
    exact ⟨c', hv, .refl⟩
  | cons u us ih =>
    cases w with
    | nil => cases hu
    | cons t w =>
      rw [List.map_cons, List.map_cons, List.cons.injEq] at hu
      rw [List.mem_cons, not_or] at hw
      obtain ⟨c₁, h₁, hw₁⟩ := ih hu.2 hw.2 hv
      refine ⟨⟨t, u.line, us ++ vs⟩, ?_, .step (Ne.symm hw.1) h₁ hw₁⟩
      rw [List.cons_append, next, hu.1]

theorem Over.exists_readings {w : List Token} {c c' : Cursor} (h : c.Over w c') {line : Nat}
    {rs : List Reading} (hc : next line rs = .ok c) :
    ∃ us vs, rs = us ++ vs ∧ us.map Reading.answer = w.map .ok ∧ next (lineAfter line us) vs = .ok c' := by
  induction h generalizing line rs with
  | refl => exact ⟨[], rs, rfl, rfl, hc⟩
  | step ht ha _ ih =>
    rcases next_eq_ok hc with ⟨-, he⟩ | ⟨r, hr, hl, rfl⟩
    · exact absurd he ht
    · rw [advance, ← hl] at ha
      obtain ⟨us, vs, hrest, hu, hv⟩ := ih ha
      exact ⟨r :: us, vs, by rw [hrest]; rfl, by rw [List.map_cons, List.map_cons, hu, hr], hv⟩

theorem next_eot_iff {rs : List Reading} {ts : List Token}
    (hr : rs.map Reading.answer = ts.map .ok) (line : Nat) :
    (∃ c, next line rs = .ok c ∧ c.token = .eot) ↔ ts.takeWhile (· ≠ .eot) = [] := by
  cases ts with
  | nil =>
    obtain rfl := List.map_eq_nil_iff.mp hr
    exact ⟨fun _ => rfl, fun _ => ⟨_, rfl, rfl⟩⟩
  | cons t ts =>
    obtain ⟨r, rs, rfl, ha, -⟩ := List.map_eq_cons_iff.mp hr
    rw [List.takeWhile_cons, next, ha]
    by_cases ht : t = .eot
    · simp [ht]
    · simp [ht]

end Cursor

namespace Program

theorem read_eq {rs : List Reading} {c : Cursor} (hc : Cursor.next 1 rs = .ok c) :
    read rs = Parser.program (rs.length + 1) c := by
  rw [read, hc]; rfl

theorem read_eq_ok_iff {rs : List Reading} {p : Program} {c' : Cursor} :
    read rs = .ok (p, c') ↔ ∃ w us vs, rs = us ++ vs ∧ us.map Reading.answer = w.map .ok ∧ Derives w p ∧
      Cursor.next (lineAfter 1 us) vs = .ok c' ∧ c'.token = .eot := by
  constructor
  · intro h
    cases hc : Cursor.next 1 rs with
    | error e =>
      rw [read, hc] at h
      cases h
    | ok c =>
      have := Cursor.left_next hc
      rw [read_eq hc] at h
      have ht := Parser.token_of_program h
      have ha := Parser.answers_program (Nat.zero_le 0) (show c.left < rs.length + 1 by omega)
      rw [h] at ha
      cases ha with
      | @ok w _ _ hw hp _ =>
        obtain ⟨us, vs, hr, hu, hv⟩ := hw.exists_readings hc
        exact ⟨w, us, vs, hr, hu, hp, hv, ht⟩
  · intro h
    obtain ⟨w, us, vs, rfl, hu, hp, hv, ht⟩ := h
    obtain ⟨c, hc, hw⟩ := Cursor.exists_over hu (not_mem_eot_of_derives hp) hv
    have := Cursor.left_next hc
    rw [read_eq hc]
    exact reads_of_derives hp hw ht (by omega)

theorem ofReadings_eq_ok_iff {rs : List Reading} {p : Program} :
    ofReadings rs = .ok p ↔ ∃ c, read rs = .ok (p, c) := by
  unfold ofReadings
  cases read rs with
  | error e => exact ⟨(nomatch ·), fun ⟨_, h⟩ => nomatch h⟩
  | ok r =>
    constructor
    · intro h
      cases h
      exact ⟨r.2, rfl⟩
    · intro h
      obtain ⟨c, hc⟩ := h
      cases hc
      rfl

theorem ofReadings_eq_ok_iff_derives {rs : List Reading} {ts : List Token}
    (hr : rs.map Reading.answer = ts.map .ok) {p : Program} :
    ofReadings rs = .ok p ↔ Derives (ts.takeWhile (· ≠ .eot)) p := by
  rw [ofReadings_eq_ok_iff]
  constructor
  · intro h
    obtain ⟨c', h⟩ := h
    obtain ⟨w, us, vs, rfl, hu, hp, hv, ht⟩ := read_eq_ok_iff.mp h
    obtain ⟨w', v, rfl, hw', hv'⟩ := List.append_eq_map_iff.mp ((List.map_append ..).symm.trans hr)
    obtain rfl : w' = w := (List.map_inj_right fun _ _ => Except.ok.inj).mp (hw'.trans hu)
    have rest := (Cursor.next_eot_iff hv'.symm _).mp ⟨c', hv, ht⟩
    rw [takeWhile_append_of_not_mem (not_mem_eot_of_derives hp), rest, List.append_nil]
    exact hp
  · intro hp
    have hs : (ts.dropWhile (· ≠ .eot)).takeWhile (· ≠ .eot) = [] := by
      cases hd : ts.dropWhile (· ≠ .eot) with
      | nil => rfl
      | cons t v =>
        have := List.head?_dropWhile_not (· ≠ .eot) ts
        rw [hd] at this
        exact List.takeWhile_cons_of_neg (by simpa using this)
    rw [← List.takeWhile_append_dropWhile (p := (· ≠ .eot)) (l := ts), List.map_append] at hr
    obtain ⟨us, vs, rfl, hu, hv⟩ := List.map_eq_append_iff.mp hr
    obtain ⟨c', hc, ht⟩ := (Cursor.next_eot_iff hv (lineAfter 1 us)).mpr hs
    exact ⟨c', read_eq_ok_iff.mpr ⟨_, us, vs, rfl, hu, hp, hc, ht⟩⟩

theorem answers_mk (line : Nat) (as : List (Except String Token)) :
    (as.map (Reading.mk line)).map Reading.answer = as := by
  rw [List.map_map]
  exact List.map_id _

theorem derives_unique {w : List Token} {p q : Program} (hp : Derives w p) (hq : Derives w q) : p = q := by
  have here : ∀ {p}, Derives w p → ofReadings ((w.map .ok).map (Reading.mk 1)) = .ok p := by
    intro p hp
    rw [ofReadings_eq_ok_iff_derives (answers_mk ..), takeWhile_of_not_mem (not_mem_eot_of_derives hp)]
    exact hp
  exact Except.ok.inj ((here hp).symm.trans (here hq))

/-! ## Tokens by themselves -/

/-- Reads a program from a source that answers these tokens, one a line, and then the end of the text. -/
def ofTokens (ts : List Token) : Except SyntaxError Program := ofReadings (numbered (ts.map .ok))

theorem answers_numbered (as : List (Except String Token)) :
    (numbered as).map Reading.answer = as ++ [.ok .eot] := by
  apply List.ext_getElem?
  intro i
  rw [numbered, List.getElem?_map, List.getElem?_mapIdx, Option.map_map]
  exact Option.map_id_fun ▸ rfl

theorem ofTokens_eq_ok_iff {ts : List Token} {p : Program} :
    ofTokens ts = .ok p ↔ Derives (ts.takeWhile (· ≠ .eot)) p := by
  have hr : (numbered (ts.map .ok)).map Reading.answer = (ts ++ [Token.eot]).map .ok := by
    rw [answers_numbered, List.map_append]; rfl
  rw [ofTokens, ofReadings_eq_ok_iff_derives hr, takeWhile_append_eot]

/-- A list of tokens, read up to the first end of the text, is accepted if and only if it derives a
program, and that is the answer. There is no other that it derives, and nothing that separates tokens
may stand in it. -/
theorem ofTokens_exact (ts : List Token) :
    (∀ p, ofTokens ts = .ok p ↔ Derives (ts.takeWhile (· ≠ .eot)) p) ∧
    (∀ p q, Derives ts p → Derives ts q → p = q) ∧
    (∀ p, Derives ts p → ∀ t ∈ ts, t.isContent = true) ∧
    (∀ f, .filler f ∈ ts.takeWhile (· ≠ .eot) → ∃ e, ofTokens ts = .error e) := by
  refine ⟨fun _ => ofTokens_eq_ok_iff, fun _ _ => derives_unique, fun _ => content_of_blocks, fun f hf => ?_⟩
  cases h : ofTokens ts with
  | error e => exact ⟨e, rfl⟩
  | ok p => exact absurd (content_of_blocks (ofTokens_eq_ok_iff.mp h) _ hf) Bool.false_ne_true

/-- Of `a := - b - c` the sign belongs to `b`, and a blank anywhere in it is an error. -/
theorem ofTokens_exact_negate :
    Derives [.identifier "a", .symbol .assign, .symbol .minus, .identifier "b", .symbol .minus,
      .identifier "c"]
      ⟨[.block [.assign "a" (.binary .sub (.negate (.variable "b")) (.variable "c"))]]⟩ ∧
    ∃ e, ofTokens [.identifier "a", .filler .blank] = .error e :=
  ⟨((ofTokens_exact [.identifier "a", .symbol .assign, .symbol .minus, .identifier "b", .symbol .minus,
      .identifier "c"]).1 _).mp rfl, (ofTokens_exact _).2.2.2 .blank (by decide)⟩

end Program

end Turtle
