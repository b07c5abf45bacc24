import Mathlib.Algebra.GroupWithZero.Nat
import Mathlib.Data.List.Chain
import Turtle.Proofs.Lexing.Longest

/-!
# Line breaks

A line break cuts a source in two that are read apart, unless it stands in a block comment. No other
text of a pattern goes on behind a line end, and a comment that is open there is seen as a slash and a
star before it (`readings_newline_iff`). So the line ends that are counted are all that a source has
(`sum_lineEnds_lexemes`).
-/

namespace Turtle

namespace Pattern

theorem newline_not_mem_of_isWritten {n : Numeral} (h : n.IsWritten) : '\n' ∉ n.text :=
  fun hn => absurd (Numeral.isPart_of_mem h hn) (by decide)

theorem newline_not_mem_of_identifier {w : List Char} (h : w ∈ identifier.language) : '\n' ∉ w := by
  obtain ⟨c, cs, rfl, hc, hcs⟩ := mem_identifier.mp h
  refine List.not_mem_cons_of_ne_of_not_mem ?_ fun hn => absurd (hcs _ hn) (by decide)
  rintro rfl
  cases hc

/-- A line end stands by itself or in a block comment. -/
theorem newline_not_mem {p : Pattern} {w : List Char} (h : w ∈ p.language) (hn : p ≠ newline)
    (hb : p ≠ blockComment) :
    '\n' ∉ w := by
  cases p with
  | number =>
    obtain ⟨n, hn, rfl⟩ := isWritten_of_number (.inl rfl) h
    exact newline_not_mem_of_isWritten hn
  | fraction =>
    obtain ⟨n, hn, rfl⟩ := isWritten_of_number (.inr rfl) h
    exact newline_not_mem_of_isWritten hn
  | keyword k => exact newline_not_mem_of_identifier (identifier_of_keyword h)
  | identifier => exact newline_not_mem_of_identifier h
  | symbol s =>
    obtain rfl : w = s.text.toList := h
    cases s <;> decide
  | lineComment =>
    obtain ⟨v, hv, rfl⟩ := mem_text_mul.mp h
    have rest : '\n' ∉ v := fun hm => absurd (mem_many.mp hv _ hm) (by decide)
    exact List.not_mem_append (by decide) rest
  | blank =>
    obtain ⟨c, v, rfl, hc, hv⟩ := mem_single_mul.mp h
    refine List.not_mem_cons_of_ne_of_not_mem ?_ fun hm => absurd (mem_many.mp hv _ hm) (by decide)
    rintro rfl
    cases hc
  | newline => exact absurd rfl hn
  | blockComment => exact absurd rfl hb

/-- What stands at the front of a text with a line break in it stands before the break,
or is a block comment. -/
theorem prefix_or_comment {p : Pattern} {x u v : List Char} (hx : x ∈ p.language) (hp : x <+: u ++ '\n' :: v)
    (hu : u ≠ []) : x <+: u ∨ u.length < x.length ∧ x ∈ blockComment.language := by
  by_cases hle : x.length ≤ u.length
  · exact .inl (List.prefix_of_prefix_length_le hp (List.prefix_append ..) hle)
  · have hlt := Nat.lt_of_not_le hle
    refine .inr ⟨hlt, ?_⟩
    obtain ⟨t, rfl⟩ := List.prefix_of_prefix_length_le (List.prefix_append u ('\n' :: v)) hp
      (Nat.le_of_lt hlt)
    obtain ⟨d, t, rfl⟩ := List.exists_cons_of_ne_nil (show t ≠ [] by rintro rfl; simp at hlt)
    obtain ⟨rfl, -⟩ := List.cons_prefix_cons.mp ((List.prefix_append_right_inj u).mp hp)
    have mem : '\n' ∈ u ++ '\n' :: t := List.mem_append_right u List.mem_cons_self
    by_cases hn : p = newline
    · obtain rfl := hn
      have hlen : (u ++ '\n' :: t).length = 1 := congrArg List.length (show u ++ '\n' :: t = ['\n'] from hx)
      have := List.length_pos_iff.mpr hu
      simp at hlen
      omega
    · by_cases hb : p = blockComment
      · exact hb ▸ hx
      · exact absurd mem (newline_not_mem hx hn hb)

end Pattern

namespace Lexeme

def Unclosed (cs : List Char) : Prop := ∃ r, cs = '/' :: '*' :: r ∧ splitClose r = none

/-- A slash and then a star. A source has them behind one another only if they open a comment that is
never closed. -/
def Opens (l l' : Lexeme) : Prop := l.token? = some (.symbol .slash) ∧ l'.token? = some (.symbol .star)

theorem scan_star (cs : List Char) : scan '*' cs = (⟨some (.symbol .star), ['*']⟩, cs) := rfl

theorem scan_open {cs : List Char} (h : splitClose cs = none) :
    scan '/' ('*' :: cs) = (⟨some (.symbol .slash), ['/']⟩, '*' :: cs) := by
  rw [scan_slash, filler?, h]
  rfl

theorem lexemes_open {cs : List Char} (h : splitClose cs = none) : lexemes ('/' :: '*' :: cs) =
    ⟨some (.symbol .slash), ['/']⟩ :: ⟨some (.symbol .star), ['*']⟩ :: lexemes cs := by
  rw [lexemes_scan (scan_open h), lexemes_scan (scan_star cs)]

theorem opens_of_unclosed {cs : List Char} (h : Unclosed cs) :
    ∃ l l' ls, lexemes cs = l :: l' :: ls ∧ l.Opens l' := by
  obtain ⟨r, rfl, hr⟩ := h
  exact ⟨_, _, _, lexemes_open hr, rfl, rfl⟩

/-! ## What is cut off in front of a line break -/

theorem unclosed_of_comment {cs x v : List Char} (hx : x ∈ Pattern.blockComment.language)
    (hp : x <+: cs ++ '\n' :: v) (hlong : cs.length < x.length) (hne : cs ≠ []) : Unclosed cs := by
  obtain ⟨z, hz, rfl⟩ := Pattern.mem_text_mul.mp hx
  obtain ⟨t, ht⟩ := hp
  match cs, hne with
  | [_], _ => cases ht
  | c :: d :: cs, _ =>
    simp only [List.cons_append, List.nil_append, List.cons.injEq] at ht
    obtain ⟨rfl, rfl, ht⟩ := ht
    have closed := Pattern.splitClose_of_closing hz t
    refine ⟨cs, rfl, ?_⟩
    cases hs : splitClose cs with
    | none => rfl
    | some s =>
      obtain ⟨w, r⟩ := s
      have hw := Pattern.splitClose_of_closing (Pattern.closing_of_splitClose hs) (r ++ '\n' :: v)
      rw [ht, ← splitClose_append hs, List.append_assoc, hw] at closed
      cases closed
      have hlen := congrArg List.length (splitClose_append hs)
      simp at hlen hlong
      omega

theorem takes_newline {p : Pattern} {w r : List Char} (h : p.Takes w r) (hopen : ¬Unclosed (w ++ r))
    (v : List Char) :
    p.Takes w (r ++ '\n' :: v) := by
  have hne : w ++ r ≠ [] := List.append_ne_nil_of_left_ne_nil (ne_nil_of_mem h.mem) r
  refine ⟨h.mem, h.free, fun q x hx hp => ?_⟩
  rw [← List.append_assoc] at hp
  rcases Pattern.prefix_or_comment hx hp hne with hp | ⟨hlong, hc⟩
  · exact h.longest q x hx hp
  · exact absurd (unclosed_of_comment hc hp hlong hne) hopen

theorem scan_newline {c : Char} {cs : List Char} (hopen : ¬Unclosed (c :: cs)) (v : List Char) :
    scan c (cs ++ '\n' :: v) = ((scan c cs).1, (scan c cs).2 ++ '\n' :: v) := by
  rcases takes_scan c cs with ⟨p, hp, ht⟩ | ⟨hn, hs⟩
  · have cuts := (cuts_scan c cs).1
    obtain ⟨d, us, hw⟩ := List.exists_cons_of_ne_nil (ne_nil_of_mem hp.mem)
    have takes := takes_newline hp (by rwa [cuts]) v
    rw [hw, List.cons_append] at cuts
    rw [hw] at takes
    obtain ⟨rfl, hus⟩ := List.cons.inj cuts
    have front := scan_of_takes takes
    rwa [← List.append_assoc, hus, ← hw, ← ht] at front
  · rw [hs]
    refine scan_of_failure fun p w hw hp => ?_
    rcases Pattern.prefix_or_comment hw (u := c :: cs) hp (List.cons_ne_nil c cs) with hp | ⟨-, hc⟩
    · exact hn p w hw hp
    · -- the slash of the comment would be a sign here
      obtain ⟨z, -, rfl⟩ := Pattern.mem_text_mul.mp hc
      obtain ⟨t, ht⟩ := hp
      obtain ⟨rfl, -⟩ := List.cons.inj ht
      exact hn (.symbol .slash) ['/'] rfl ⟨cs, rfl⟩

end Lexeme

theorem lexemes_newline {u : List Char} (h : (lexemes u).IsChain fun l l' => ¬l.Opens l') (v : List Char) :
    lexemes (u ++ '\n' :: v) = lexemes u ++ ⟨some (.filler .newline), ['\n']⟩ :: lexemes v := by
  induction u using lexemes.induct with
  | case1 =>
    rw [List.nil_append, lexemes_scan (l := ⟨some (.filler .newline), ['\n']⟩) rfl, lexemes.eq_1]
    rfl
  | case2 c cs ih =>
    have closed : ¬Lexeme.Unclosed (c :: cs) := by
      intro ho
      obtain ⟨l, l', ls, hl, opens⟩ := Lexeme.opens_of_unclosed ho
      rw [hl] at h
      exact (List.isChain_cons_cons.mp h).1 opens
    rw [lexemes] at h
    rw [List.cons_append, lexemes, Lexeme.scan_newline closed v, ih h.tail, lexemes]
    rfl

/-! ## Lines -/

theorem lineEnds_of_munches {cs : List Char} {ls : List Lexeme} (h : Munches cs ls) :
    ∀ l ∈ ls, l.lineEnds = l.text.count '\n' := by
  induction h with
  | nil => exact List.forall_mem_nil _
  | @lexeme p w r ls h _ ih =>
    refine List.forall_mem_cons.mpr ⟨?_, ih⟩
    have unbroken (hn : p ≠ .newline) (hb : p ≠ .blockComment) : w.count '\n' = 0 :=
      List.count_eq_zero.mpr (Pattern.newline_not_mem h.mem hn hb)
    cases p with
    | newline =>
      obtain rfl : w = ['\n'] := h.mem
      rfl
    | blockComment => rfl
    | number | fraction =>
      rw [unbroken (by simp) (by simp), Lexeme.lineEnds, Pattern.token?]
      cases (Number.ofChars w).toOption <;> rfl
    | _ => exact (unbroken (by simp) (by simp)).symm
  | @failure c r ls h _ ih =>
    refine List.forall_mem_cons.mpr ⟨?_, ih⟩
    have hc : c ≠ '\n' := by
      rintro rfl
      exact h .newline ['\n'] rfl ⟨r, rfl⟩
    exact (List.count_eq_zero.mpr (List.not_mem_cons_of_ne_of_not_mem hc.symm List.not_mem_nil)).symm

theorem lineEnds_of_mem {cs : List Char} {l : Lexeme} (h : l ∈ lexemes cs) : l.lineEnds = l.text.count '\n' :=
  lineEnds_of_munches (munches_lexemes cs) l h

theorem sum_lineEnds {ls : List Lexeme} (h : ∀ l ∈ ls, l.lineEnds = l.text.count '\n') :
    (ls.map Lexeme.lineEnds).sum = (ls.flatMap Lexeme.text).count '\n' := by
  rw [List.count_flatMap, List.map_congr_left h]
  rfl

theorem sum_lineEnds_lexemes (cs : List Char) : ((lexemes cs).map Lexeme.lineEnds).sum = cs.count '\n' := by
  rw [sum_lineEnds fun _ => lineEnds_of_mem, flatMap_text_lexemes]

/-! ## Readings over a line break -/

theorem answers_dropLast (line : Nat) (ls : List Lexeme) :
    ((readingsOf line ls).dropLast).map Reading.answer = ls.filterMap Lexeme.answer? := by
  rw [List.map_dropLast, answers_readingsOf, List.dropLast_concat]

theorem readingsOf_ne_nil (line : Nat) (ls : List Lexeme) : readingsOf line ls ≠ [] := by
  intro h
  have answers := answers_readingsOf line ls
  rw [h] at answers
  simp at answers

theorem readingsOf_append (line : Nat) (ls ls' : List Lexeme) : readingsOf line (ls ++ ls') =
    (readingsOf line ls).dropLast ++ readingsOf (line + (ls.map Lexeme.lineEnds).sum) ls' := by
  induction ls generalizing line with
  | nil => rfl
  | cons l ls ih =>
    rw [List.cons_append, readingsOf_cons, ih, readingsOf_cons,
      List.dropLast_append_of_ne_nil (readingsOf_ne_nil _ ls),
      List.append_assoc, List.map_cons, List.sum_cons, Nat.add_assoc]

def Reading.later (k : Nat) (r : Reading) : Reading := { r with line := r.line + k }

theorem readingsOf_later (k line : Nat) (ls : List Lexeme) :
    readingsOf (line + k) ls = (readingsOf line ls).map (Reading.later k) := by
  induction ls generalizing line with
  | nil => rfl
  | cons l ls ih =>
    rw [readingsOf_cons, readingsOf_cons, List.map_append, Nat.add_right_comm, ih]
    cases l.answer? <;> rfl

theorem toList_newline (u v : String) : (u ++ "\n" ++ v).toList = u.toList ++ '\n' :: v.toList := by
  rw [String.toList_append, String.toList_append, List.append_assoc]
  rfl

theorem readings_newline {u : String} (h : (lexemes u.toList).IsChain fun l l' => ¬l.Opens l') (v : String) :
    readings (u ++ "\n" ++ v) =
      (readings u).dropLast ++ (readings v).map (Reading.later (u.toList.count '\n' + 1)) := by
  rw [readings, toList_newline, lexemes_newline h, readingsOf_append, sum_lineEnds_lexemes]
  refine congrArg ((readings u).dropLast ++ ·) ?_
  rw [readings, ← readingsOf_later]
  rfl

/-! ## Open comments -/

namespace Lexeme

theorem text_of_symbol {cs : List Char} {l : Lexeme} {s : Symbol} (hl : l ∈ lexemes cs)
    (ht : l.token? = some (.symbol s)) : l.text = s.text.toList := by
  obtain ⟨c, r, rfl⟩ := exists_scan_of_mem hl
  rcases takes_scan c r with ⟨p, hp, hs⟩ | ⟨-, hs⟩
  · rw [ht] at hs
    cases p with
    | symbol y =>
      cases hs
      exact hp.mem
    | number | fraction =>
      obtain ⟨v, -, hv⟩ := Option.map_eq_some_iff.mp hs.symm
      cases hv
    | _ => cases hs
  · rw [hs] at ht
    cases ht

theorem unclosed_of_opens {cs : List Char} {l l' : Lexeme} {ls : List Lexeme} (h : lexemes cs = l :: l' :: ls)
    (ho : l.Opens l') : Unclosed cs := by
  have slash : l.text = ['/'] := text_of_symbol (by rw [h]; simp) ho.1
  have star : l'.text = ['*'] := text_of_symbol (by rw [h]; simp) ho.2
  have text : '/' :: '*' :: ls.flatMap Lexeme.text = cs := by
    rw [← flatMap_text_lexemes cs, h, List.flatMap_cons, List.flatMap_cons, slash, star]
    rfl
  refine ⟨_, text.symm, ?_⟩
  cases hs : splitClose (ls.flatMap Lexeme.text) with
  | none => rfl
  | some s =>
    have comment := lexemes_scan (scan_blockComment hs)
    obtain ⟨rfl, -⟩ := List.cons.inj (comment.symm.trans ((congrArg lexemes text).trans h))
    cases ho.1

theorem splitClose_newline {r : List Char} (h : splitClose r = none) (v : List Char) :
    splitClose (r ++ '\n' :: v) = (splitClose v).map fun s => (r ++ '\n' :: s.1, s.2) := by
  induction r using splitClose.induct with
  | case1 => simp [splitClose] at h
  | case2 c t hn ih =>
    have head : c = '*' → (t ++ '\n' :: v).head? ≠ some '/' := by
      intro hc hs
      cases t with
      | nil => cases hs
      | cons d t =>
        obtain rfl := Option.some.inj hs
        exact hn t hc rfl
    rw [splitClose.eq_2 _ _ hn, Option.map_eq_none_iff] at h
    rw [List.cons_append, Pattern.splitClose_cons head, ih h, Option.map_map]
    rfl
  | case3 => exact Pattern.splitClose_cons fun hc => absurd hc (by decide)

end Lexeme

/-- What closes the comment that a source leaves open leaves no answer, and takes with it the slash and
the star. -/
theorem length_answersOf_open {u : List Char} (h : ¬(lexemes u).IsChain fun l l' => ¬l.Opens l') :
    (answersOf (u ++ ['\n', '*', '/'])).length < (answersOf u).length + 2 := by
  induction u using lexemes.induct with
  | case1 =>
    rw [lexemes] at h
    exact absurd .nil h
  | case2 c cs ih =>
    by_cases ho : Lexeme.Unclosed (c :: cs)
    · obtain ⟨r, he, hr⟩ := ho
      have closed := Lexeme.splitClose_newline hr ['*', '/']
      have comment := answersOf_filler (Lexeme.scan_blockComment closed) rfl
      rw [he, List.cons_append, List.cons_append, comment, answersOf_nil]
      exact Nat.succ_pos _
    · have rest : ¬(lexemes (Lexeme.scan c cs).2).IsChain fun l l' => ¬l.Opens l' := by
        intro hr
        rw [lexemes] at h
        refine h (List.isChain_cons.mpr ⟨fun l' hl' opens => ho ?_, hr⟩)
        obtain ⟨ls, hls⟩ := List.head?_eq_some_iff.mp hl'
        exact Lexeme.unclosed_of_opens (by rw [lexemes, hls]) opens
      have := ih rest
      rw [List.cons_append, answersOf_cons, answersOf_cons, Lexeme.scan_newline ho]
      simp only [List.length_append]
      omega

theorem length_readings (source : String) :
    (readings source).length = (answersOf source.toList).length + 1 := by
  have answers := congrArg List.length (answers_readings source)
  rwa [List.length_map, List.length_append] at answers

/-- A line break behind a source cuts it from all that can follow, if and only if none of its slashes is
followed by a star: then the readings of both stand behind one another, those of the second so many
lines later. -/
theorem readings_newline_iff (u : String) : ((lexemes u.toList).IsChain fun l l' => ¬l.Opens l') ↔
    ∀ v, readings (u ++ "\n" ++ v) =
      (readings u).dropLast ++ (readings v).map (Reading.later (u.toList.count '\n' + 1)) := by
  constructor
  · exact readings_newline
  · intro h
    by_contra hopen
    have short := length_answersOf_open hopen
    have lengths := congrArg List.length (h "*/")
    have signs : answersOf "*/".toList = [.ok (.symbol .star), .ok (.symbol .slash)] := by
      rw [show "*/".toList = ['*', '/'] from rfl, answersOf_scan (Lexeme.scan_star ['/']) rfl,
        answersOf_scan (l := ⟨some (.symbol .slash), ['/']⟩) (r := []) rfl rfl, answersOf_nil]
    rw [List.length_append, List.length_map, List.length_dropLast, length_readings, length_readings,
      length_readings, toList_newline, signs] at lengths
    exact absurd (show (answersOf (u.toList ++ ['\n', '*', '/'])).length + 1 = _ from lengths) (by
      simp only [List.length_cons, List.length_nil]
      omega)

/-- In front of the break a character that begins nothing, a number that is not finished and a comment
that its own line end closes, behind it a comment that is never closed. -/
theorem readings_newline_iff_unfinished :
    ((lexemes "?1e+//\r".toList).IsChain fun l l' => ¬l.Opens l') ∧
    ∃ v, readings ("?1e+//\r" ++ "\n" ++ "/*\n") =
      [⟨1, .error "?"⟩, ⟨1, .ok (.real v)⟩, ⟨1, .ok (.identifier "e")⟩, ⟨1, .ok (.symbol .plus)⟩,
        ⟨2, .ok (.symbol .slash)⟩, ⟨2, .ok (.symbol .star)⟩, ⟨3, .ok .eot⟩] := by
  have lexed : lexemes "?1e+//\r".toList = [⟨none, ['?']⟩, ⟨(Number.ofChars ['1']).toOption.map .real, ['1']⟩,
      ⟨some (.identifier "e"), ['e']⟩, ⟨some (.symbol .plus), ['+']⟩,
      ⟨some (.filler .lineComment), ['/', '/']⟩, ⟨some (.filler .blank), ['\r']⟩] :=
    lexemes_of_scan rfl <| lexemes_of_scan rfl <| lexemes_of_scan rfl <| lexemes_of_scan rfl <|
      lexemes_of_scan rfl <| lexemes_of_scan rfl lexemes.eq_1
  have opened : lexemes "/*\n".toList = [⟨some (.symbol .slash), ['/']⟩, ⟨some (.symbol .star), ['*']⟩,
      ⟨some (.filler .newline), ['\n']⟩] :=
    (Lexeme.lexemes_open rfl).trans <| congrArg _ <| congrArg _ <| lexemes_of_scan rfl lexemes.eq_1
  obtain ⟨m, one⟩ := Number.ofChars_of_isWritten (n := ⟨['1'], [], []⟩)
    ⟨List.forall_mem_singleton.mpr rfl, .inl rfl, .inl rfl, fun h => absurd h (List.cons_ne_nil _ _)⟩
  rw [show Number.ofChars ['1'] = _ from one] at lexed
  have apart : (lexemes "?1e+//\r".toList).IsChain fun l l' => ¬l.Opens l' := by
    rw [lexed]
    simp [Lexeme.Opens, Except.toOption]
  refine ⟨apart, m.toNumber false, ?_⟩
  rw [(readings_newline_iff _).mp apart, readings, readings, lexed, opened]
  rfl

end Turtle
