import Turtle.Proofs.Lexing.LineBreak

/-!
# Block comments

A comment ends at the first star with a slash behind it, and nothing in front of that plays a part:
neither stars nor slashes, nor what looks like another comment. So the pattern has one text at the front
of a source or none (`blockComment_iff`). Where it has none, the slash and the star are signs, and what
stands behind them is source.
-/

namespace Turtle

namespace Lexeme

def ClosesAt (cs : List Char) (i : Nat) : Prop := ['*', '/'] <+: cs.drop i

structure ClosesFirst (start : Nat) (cs : List Char) (i : Nat) : Prop where
  start_le : start ≤ i
  here : ClosesAt cs i
  before : ∀ j, start ≤ j → j < i → ¬ClosesAt cs j

/-! ## The first of them -/

theorem not_closesAt_nil (i : Nat) : ¬ClosesAt [] i := by
  rw [ClosesAt, List.drop_nil]
  decide

theorem exists_closesFirst {start i : Nat} {cs : List Char} (hi : start ≤ i) (h : ClosesAt cs i) :
    ∃ j, ClosesFirst start cs j := by
  have found : ∃ j, start ≤ j ∧ ClosesAt cs j := ⟨i, hi, h⟩
  classical
  obtain ⟨le, here⟩ := Nat.find_spec found
  exact ⟨_, le, here, fun j hj hlt hc => Nat.find_min found hlt ⟨hj, hc⟩⟩

namespace ClosesFirst

variable {start i : Nat} {cs : List Char}

theorem unique {j : Nat} (h : ClosesFirst start cs i) (h' : ClosesFirst start cs j) : i = j := by
  apply Nat.le_antisymm
  · exact Nat.le_of_not_lt fun hlt => h.before j h'.start_le hlt h'.here
  · exact Nat.le_of_not_lt fun hlt => h'.before i h.start_le hlt h.here

theorem tail {c : Char} (h : ClosesFirst 0 (c :: cs) (i + 1)) : ClosesFirst 0 cs i :=
  ⟨Nat.zero_le i, h.here, fun j _ hlt => h.before (j + 1) (Nat.zero_le _) (Nat.succ_lt_succ hlt)⟩

theorem append_iff {u : List Char} :
    ClosesFirst u.length (u ++ cs) (u.length + i) ↔ ClosesFirst 0 cs i := by
  have shift (j : Nat) : ClosesAt (u ++ cs) (u.length + j) ↔ ClosesAt cs j := by
    rw [ClosesAt, ClosesAt, List.drop_length_add_append]
  constructor
  · intro h
    refine ⟨Nat.zero_le i, (shift i).mp h.here, fun j _ hlt hc => ?_⟩
    exact h.before (u.length + j) (Nat.le_add_right ..) (Nat.add_lt_add_left hlt _) ((shift j).mpr hc)
  · intro h
    refine ⟨Nat.le_add_right .., (shift i).mpr h.here, fun j hj hlt hc => ?_⟩
    obtain ⟨k, rfl⟩ := Nat.exists_eq_add_of_le hj
    exact h.before k (Nat.zero_le k) (Nat.lt_of_add_lt_add_left hlt) ((shift k).mp hc)

end ClosesFirst

/-! ## Where a comment is closed -/

theorem splitClose_of_closesFirst {cs : List Char} {i : Nat} (h : ClosesFirst 0 cs i) :
    splitClose cs = some (cs.take (i + 2), cs.drop (i + 2)) := by
  induction i generalizing cs with
  | zero =>
    obtain ⟨r, rfl⟩ := h.here
    rw [List.cons_append, List.singleton_append, splitClose]
    rfl
  | succ i ih =>
    cases cs with
    | nil => exact absurd h.here (not_closesAt_nil _)
    | cons c cs =>
      have later : c = '*' → cs.head? ≠ some '/' := by
        rintro rfl hs
        obtain ⟨r, rfl⟩ := List.head?_eq_some_iff.mp hs
        exact h.before 0 (Nat.le_refl 0) (Nat.succ_pos i) ⟨r, rfl⟩
      rw [Pattern.splitClose_cons later, ih h.tail]
      rfl

theorem exists_closesAt {cs : List Char} {s : List Char × List Char} (h : splitClose cs = some s) :
    ∃ i, ClosesAt cs i := by
  induction cs using splitClose.induct generalizing s with
  | case1 t => exact ⟨0, t, rfl⟩
  | case2 c t hn ih =>
    rw [splitClose.eq_2 _ _ hn] at h
    obtain ⟨s', hs, -⟩ := Option.map_eq_some_iff.mp h
    obtain ⟨i, hi⟩ := ih hs
    exact ⟨i + 1, hi⟩
  | case3 => cases h

theorem splitClose_eq_some_iff {cs w r : List Char} : splitClose cs = some (w, r) ↔
    ∃ i, ClosesFirst 0 cs i ∧ w = cs.take (i + 2) ∧ r = cs.drop (i + 2) := by
  constructor
  · intro h
    obtain ⟨k, hk⟩ := exists_closesAt h
    obtain ⟨i, hi⟩ := exists_closesFirst (Nat.zero_le k) hk
    obtain ⟨rfl, rfl⟩ := Prod.mk.inj (Option.some.inj (h.symm.trans (splitClose_of_closesFirst hi)))
    exact ⟨i, hi, rfl, rfl⟩
  · rintro ⟨i, hi, rfl, rfl⟩
    exact splitClose_of_closesFirst hi

theorem lexemes_comment {w : List Char} (hw : w ∈ Pattern.blockComment.language) (r : List Char) :
    lexemes (w ++ r) = ⟨some (.filler .blockComment), w⟩ :: lexemes r := by
  obtain ⟨z, hz, rfl⟩ := Pattern.mem_text_mul.mp hw
  exact lexemes_scan (scan_blockComment (Pattern.splitClose_of_closing hz r))

section
variable {t : List Char} (ht : ['/', '*'] <+: t)
include ht

theorem blockComment_iff {w : List Char} : w ∈ Pattern.blockComment.language ∧ w <+: t ↔
    ∃ i, ClosesFirst 2 t i ∧ w = t.take (i + 2) := by
  obtain ⟨r, rfl⟩ := ht
  have front (i : Nat) : (['/', '*'] ++ r).take (2 + i + 2) = ['/', '*'] ++ r.take (i + 2) := by
    rw [Nat.add_assoc]
    exact @List.take_length_add_append _ ['/', '*'] r (i + 2)
  constructor
  · rintro ⟨hw, s, hs⟩
    obtain ⟨z, hz, rfl⟩ := Pattern.mem_text_mul.mp hw
    rw [List.append_assoc, List.append_cancel_left_eq] at hs
    have split := Pattern.splitClose_of_closing hz s
    rw [hs] at split
    obtain ⟨i, hi, rfl, -⟩ := splitClose_eq_some_iff.mp split
    exact ⟨2 + i, (ClosesFirst.append_iff (u := ['/', '*'])).mpr hi, (front i).symm⟩
  · rintro ⟨i, hi, rfl⟩
    obtain ⟨i, rfl⟩ := Nat.exists_eq_add_of_le hi.start_le
    have split := splitClose_of_closesFirst ((ClosesFirst.append_iff (u := ['/', '*'])).mp hi)
    exact ⟨Pattern.mem_text_mul.mpr ⟨_, Pattern.closing_of_splitClose split, front i⟩, List.take_prefix ..⟩

theorem lexemes_unclosed (h : ∀ i, 2 ≤ i → ¬ClosesAt t i) :
    lexemes t = ⟨some (.symbol .slash), ['/']⟩ :: ⟨some (.symbol .star), ['*']⟩ :: lexemes (t.drop 2) := by
  obtain ⟨r, rfl⟩ := ht
  cases hs : splitClose r with
  | none => exact lexemes_open hs
  | some s =>
    obtain ⟨i, hi, -, -⟩ := splitClose_eq_some_iff.mp hs
    obtain ⟨le, here, -⟩ := (ClosesFirst.append_iff (u := ['/', '*'])).mpr hi
    exact absurd here (h _ le)

end

end Lexeme

open Lexeme

/-- Let a text begin like a comment. It begins with one if and only if a star and a slash stand
somewhere behind that, and the comment is then all up to the first of these; its line ends are counted.
Otherwise the slash and the star are signs, and the text behind them is read from the line on which they
stand, each of its line ends being counted where it is passed. -/
theorem readings_blockComment {t : List Char} (ht : ['/', '*'] <+: t) (line : Nat) :
    ((∃ w ∈ Pattern.blockComment.language, w <+: t) ↔ ∃ i, 2 ≤ i ∧ ClosesAt t i) ∧
    (∀ w ∈ Pattern.blockComment.language, w <+: t →
      (∀ w' ∈ Pattern.blockComment.language, w' <+: t → w' = w) ∧
      ∃ i, ClosesFirst 2 t i ∧ w = t.take (i + 2) ∧
        lexemes t = ⟨some (.filler .blockComment), w⟩ :: lexemes (t.drop (i + 2)) ∧
        readingsOf line (lexemes t) = readingsOf (line + w.count '\n') (lexemes (t.drop (i + 2)))) ∧
    ((∀ i, 2 ≤ i → ¬ClosesAt t i) →
      lexemes t = ⟨some (.symbol .slash), ['/']⟩ :: ⟨some (.symbol .star), ['*']⟩ :: lexemes (t.drop 2) ∧
      readingsOf line (lexemes t) =
        ⟨line, .ok (.symbol .slash)⟩ :: ⟨line, .ok (.symbol .star)⟩ :: readingsOf line (lexemes (t.drop 2)) ∧
      ∀ us vs, lexemes (t.drop 2) = us ++ vs → readingsOf line (lexemes (t.drop 2)) =
        (readingsOf line us).dropLast ++ readingsOf (line + (us.flatMap Lexeme.text).count '\n') vs) := by
  refine ⟨?_, fun w hw hp => ?_, fun h => ?_⟩
  · constructor
    · rintro ⟨w, hw, hp⟩
      obtain ⟨i, hi, -⟩ := (blockComment_iff ht).mp ⟨hw, hp⟩
      exact ⟨i, hi.start_le, hi.here⟩
    · rintro ⟨k, hk, here⟩
      obtain ⟨i, hi⟩ := exists_closesFirst hk here
      obtain ⟨hw, hp⟩ := (blockComment_iff ht).mpr ⟨i, hi, rfl⟩
      exact ⟨_, hw, hp⟩
  · obtain ⟨i, hi, rfl⟩ := (blockComment_iff ht).mp ⟨hw, hp⟩
    have comment := lexemes_comment hw (t.drop (i + 2))
    rw [List.take_append_drop] at comment
    refine ⟨fun w' hw' hp' => ?_, i, hi, rfl, comment, by rw [comment]; rfl⟩
    obtain ⟨j, hj, rfl⟩ := (blockComment_iff ht).mp ⟨hw', hp'⟩
    rw [hj.unique hi]
  · have signs := lexemes_unclosed ht h
    refine ⟨signs, by rw [signs]; rfl, fun us vs hcut => ?_⟩
    rw [hcut, readingsOf_append, sum_lineEnds fun l hl => lineEnds_of_mem (hcut ▸ List.mem_append_left vs hl)]

/-- The star that opens a comment does not close it, a second opening is a part of it, and of several
stars it is the last one that does. Where none does there is no comment. -/
theorem readings_blockComment_stars :
    (∃ w ∈ Pattern.blockComment.language, w <+: "/*/*\n**/*/".toList) ∧
    readings "/*/*\n**/*/" = [⟨2, .ok (.symbol .star)⟩, ⟨2, .ok (.symbol .slash)⟩, ⟨2, .ok .eot⟩] ∧
    readings "/*/\n" =
      [⟨1, .ok (.symbol .slash)⟩, ⟨1, .ok (.symbol .star)⟩, ⟨1, .ok (.symbol .slash)⟩, ⟨2, .ok .eot⟩] := by
  have closed := readings_blockComment (t := "/*/*\n**/*/".toList) ⟨_, rfl⟩ 1
  have unclosed := readings_blockComment (t := "/*/\n".toList) ⟨_, rfl⟩ 1
  obtain ⟨w, hw, hp⟩ := closed.1.mpr ⟨6, by decide, _, rfl⟩
  refine ⟨⟨w, hw, hp⟩, ?_, ?_⟩
  · obtain ⟨-, i, hi, rfl, -, line⟩ := closed.2.1 w hw hp
    have before : ∀ j < 6, 2 ≤ j → ¬['*', '/'] <+: "/*/*\n**/*/".toList.drop j := by decide
    have first : ClosesFirst 2 "/*/*\n**/*/".toList 6 :=
      ⟨by decide, ⟨_, rfl⟩, fun j hj hlt => before j hlt hj⟩
    obtain rfl := hi.unique first
    have rest : lexemes ("/*/*\n**/*/".toList.drop 8) =
        [⟨some (.symbol .star), ['*']⟩, ⟨some (.symbol .slash), ['/']⟩] :=
      lexemes_of_scan rfl <| lexemes_of_scan rfl lexemes.eq_1
    rw [readings, line, rest]
    rfl
  · have never : ∀ i, 2 ≤ i → ¬ClosesAt "/*/\n".toList i := by
      intro i hi
      have short : ∀ j < 4, 2 ≤ j → ¬['*', '/'] <+: "/*/\n".toList.drop j := by decide
      by_cases hlt : i < 4
      · exact short i hlt hi
      · rw [ClosesAt, List.drop_eq_nil_of_le (Nat.le_of_not_lt hlt)]
        decide
    have rest : lexemes ("/*/\n".toList.drop 2) =
        [⟨some (.symbol .slash), ['/']⟩, ⟨some (.filler .newline), ['\n']⟩] :=
      lexemes_of_scan rfl <| lexemes_of_scan rfl lexemes.eq_1
    rw [readings, (unclosed.2.2 never).2.1, rest]
    rfl

end Turtle
