import Turtle.Proofs.Lexing.Patterns

/-!
# The longest match

A source is cut as its patterns say: at each place stands the longest text of any of them, and a
character where none begins is a lexeme by itself. `covers_scan`: no pattern has a longer text here than
the lexeme that is taken. `munches_iff`: so the lexemes of a source are the only ones that the rule
allows.
-/

namespace Turtle

namespace Pattern

/-- At the front of `w ++ r` stands `w`, which is of this pattern and as long as any text of a pattern
there. A keyword is no identifier. -/
structure Takes (p : Pattern) (w r : List Char) : Prop where
  mem : w ∈ p.language
  free : p = .identifier → ∀ k : Keyword, w ∉ (keyword k).language
  longest : ∀ (q : Pattern) (u : List Char), u ∈ q.language → u <+: w ++ r → u.length ≤ w.length

end Pattern

inductive Munches : List Char → List Lexeme → Prop
  | nil : Munches [] []
  | lexeme {p : Pattern} {w r : List Char} {ls : List Lexeme} (h : p.Takes w r) (hr : Munches r ls) :
    Munches (w ++ r) (⟨p.token? w, w⟩ :: ls)
  | failure {c : Char} {r : List Char} {ls : List Lexeme}
    (h : ∀ (p : Pattern) (w : List Char), w ∈ p.language → ¬ w <+: c :: r) (hr : Munches r ls) :
    Munches (c :: r) (⟨none, [c]⟩ :: ls)

theorem Symbol.text_injective {s s' : Symbol} (h : s.text = s'.text) : s = s' := by
  have nodup : (Symbol.all.map Symbol.text).Nodup := by decide
  exact List.inj_on_of_nodup_map nodup s.mem_all s'.mem_all h

namespace Lexeme

open Pattern

/-! ## No pattern has more -/

/-- The lexeme is not shorter than the text `u`, and is what the pattern says if it is that text. -/
structure Covers (p : Pattern) (u : List Char) (l : Lexeme) : Prop where
  length_le : u.length ≤ l.text.length
  token : l.text = u → (p = .identifier → ∀ k : Keyword, u ∉ (keyword k).language) → l.token? = p.token? u

section
variable {c : Char} {cs u : List Char}

theorem covers_word {p : Pattern} (hu : u ∈ identifier.language) (hp : u <+: c :: cs)
    (ht : (p = .identifier → ∀ k : Keyword, u ∉ (keyword k).language) →
    p.token? u = some (.ofWord (.ofList u))) :
    Covers p u (scan c cs).1 := by
  obtain ⟨d, us, rfl, hd, hus⟩ := mem_identifier.mp hu
  obtain ⟨t, ht'⟩ := hp
  obtain ⟨rfl, rfl⟩ := List.cons.inj ht'
  rw [scan_word hd]
  refine ⟨Nat.succ_le_succ (length_le_takeWhile hus), fun he hf => ?_⟩
  dsimp only at he
  rw [ht hf, ← he]

theorem covers_identifier (hu : u ∈ identifier.language) (hp : u <+: c :: cs) :
    Covers identifier u (scan c cs).1 := by
  refine covers_word hu hp fun hf => ?_
  rw [Token.ofWord]
  split
  · rename_i k hk
    refine absurd ?_ (hf rfl k)
    show u = k.text.toList
    rw [Keyword.text_of_ofText? hk, String.toList_ofList]
  · rfl

theorem covers_keyword {k : Keyword} (hu : u ∈ (keyword k).language) (hp : u <+: c :: cs) :
    Covers (keyword k) u (scan c cs).1 := by
  refine covers_word (identifier_of_keyword hu) hp fun _ => ?_
  obtain rfl : u = k.text.toList := hu
  rw [String.ofList_toList, Token.ofWord, Keyword.ofText?_text]
  rfl

theorem scan_number (hc : c.isDigit = true ∨ c = '.') {r : List Char} {n : Numeral}
    (hn : Numeral.scan? (c :: cs) = some (n, r)) :
    scan c cs = (⟨(Number.ofChars n.text).toOption.map .real, n.text⟩, r) := by
  rcases hc with hc | rfl
  · exact scan_digit hc hn
  · have hw : word? ('.' :: cs) = none := rfl
    have hf : filler? ('.' :: cs) = none := rfl
    rw [scan, hw, hf, numeral?, hn]
    rfl

theorem covers_number {p : Pattern} (hp : p = .number ∨ p = .fraction) (hu : u ∈ p.language)
    (hu' : u <+: c :: cs) :
    Covers p u (scan c cs).1 := by
  obtain ⟨n, hn, rfl⟩ := isWritten_of_number hp hu
  obtain ⟨t, ht⟩ := hu'
  obtain ⟨n', r, hs, hl⟩ := Numeral.exists_scan?_of_isWritten hn t
  rw [ht] at hs
  obtain ⟨d, v, hv, hd⟩ := Numeral.exists_head_text hs
  have htext := Numeral.text_append_of_scan? hs
  rw [hv] at htext
  obtain ⟨rfl, -⟩ := List.cons.inj htext
  rw [scan_number hd hs]
  refine ⟨hl, fun he _ => ?_⟩
  dsimp only at he ⊢
  rw [he]
  rcases hp with rfl | rfl <;> rfl

theorem covers_blank (hu : u ∈ blank.language) (hp : u <+: c :: cs) : Covers blank u (scan c cs).1 := by
  obtain ⟨d, us, rfl, hd, hus⟩ := mem_single_mul.mp hu
  obtain ⟨t, ht⟩ := hp
  obtain ⟨rfl, rfl⟩ := List.cons.inj ht
  rw [scan_blank hd]
  exact ⟨Nat.succ_le_succ (length_le_takeWhile (mem_many.mp hus)), fun _ _ => rfl⟩

theorem covers_lineComment (hu : u ∈ lineComment.language) (hp : u <+: c :: cs) :
    Covers lineComment u (scan c cs).1 := by
  obtain ⟨v, hv, rfl⟩ := mem_text_mul.mp hu
  obtain ⟨t, ht⟩ := hp
  obtain ⟨rfl, rfl⟩ := List.cons.inj ht
  exact ⟨Nat.succ_le_succ (Nat.succ_le_succ (length_le_takeWhile (mem_many.mp hv))), fun _ _ => rfl⟩

theorem scan_blockComment {w r : List Char} (h : splitClose cs = some (w, r)) :
    scan '/' ('*' :: cs) = (⟨some (.filler .blockComment), '/' :: '*' :: w⟩, r) := by
  have hw : word? ('/' :: '*' :: cs) = none := rfl
  rw [scan, hw, filler?, h]
  rfl

theorem covers_blockComment (hu : u ∈ blockComment.language) (hp : u <+: c :: cs) :
    Covers blockComment u (scan c cs).1 := by
  obtain ⟨v, hv, rfl⟩ := mem_text_mul.mp hu
  obtain ⟨t, ht⟩ := hp
  obtain ⟨rfl, rfl⟩ := List.cons.inj ht
  show Covers blockComment ('/' :: '*' :: v) (scan '/' ('*' :: (v ++ t))).1
  rw [scan_blockComment (splitClose_of_closing hv t)]
  exact ⟨Nat.le_refl _, fun _ _ => rfl⟩

/-- Of the signs that a text begins with the longest is taken, since the longer ones are tried first. -/
theorem exists_symbol? {s : Symbol} (h : s.text.toList <+: cs) :
    ∃ y r, symbol? cs = some (⟨some (.symbol y), y.text.toList⟩, r) ∧
      s.text.toList.length ≤ y.text.toList.length := by
  unfold symbol?
  cases hf : Symbol.all.find? fun s => s.text.toList.isPrefixOf cs with
  | none => exact absurd (List.isPrefixOf_iff_prefix.mpr h) (List.find?_eq_none.mp hf s s.mem_all)
  | some y =>
    refine ⟨y, _, rfl, ?_⟩
    obtain ⟨-, before, behind, hall, hbefore⟩ := List.find?_eq_some_iff_append.mp hf
    have sorted : Symbol.all.Pairwise fun s s' => s'.text.toList.length ≤ s.text.toList.length := by decide
    have mem := s.mem_all
    rw [hall] at sorted mem
    rcases List.mem_append.mp mem with hs | hs
    · have := hbefore s hs
      rw [List.isPrefixOf_iff_prefix.mpr h] at this
      cases this
    · rcases List.mem_cons.mp hs with rfl | hs
      · exact Nat.le_refl _
      · exact List.rel_of_pairwise_cons (List.pairwise_append.mp sorted).2.1 hs

theorem length_filler?_slash {s : Lexeme × List Char} (h : filler? ('/' :: cs) = some s) :
    1 < s.1.text.length := by
  unfold filler? at h
  split at h
  · cases h
  · rename_i he; cases he
  · obtain rfl := Option.some.inj h
    simp
  · obtain ⟨t, -, rfl⟩ := Option.map_eq_some_iff.mp h
    simp
  · rename_i he
    obtain ⟨rfl, rfl⟩ := List.cons.inj he
    cases h

theorem scan_symbol {s : Symbol} (hs : s ≠ .slash) (h : s.text.toList <+: c :: cs) :
    scan c cs = (symbol? (c :: cs)).getD (⟨none, [c]⟩, cs) := by
  obtain ⟨t, ht⟩ := h
  cases s <;> first | exact absurd rfl hs | (obtain ⟨rfl, -⟩ := List.cons.inj ht; rfl)

theorem scan_slash (cs : List Char) :
    scan '/' cs = (filler? ('/' :: cs) <|> symbol? ('/' :: cs)).getD (⟨none, ['/']⟩, cs) := by
  have hw : word? ('/' :: cs) = none := rfl
  have hn : numeral? ('/' :: cs) = none := rfl
  rw [scan, hw, hn]
  rfl

theorem covers_symbol {s : Symbol} (hu : u ∈ (symbol s).language) (hp : u <+: c :: cs) :
    Covers (symbol s) u (scan c cs).1 := by
  obtain rfl : u = s.text.toList := hu
  obtain ⟨y, r, hy, hl⟩ := exists_symbol? hp
  have sign : Covers (symbol s) s.text.toList ⟨some (.symbol y), y.text.toList⟩ := by
    refine ⟨hl, fun he _ => ?_⟩
    rw [Symbol.text_injective (String.toList_inj.mp he)]
    rfl
  by_cases hs : s = .slash
  · obtain rfl := hs
    obtain ⟨t, ht⟩ := hp
    obtain ⟨rfl, -⟩ := List.cons.inj (show '/' :: t = c :: cs from ht)
    rw [scan_slash]
    cases hf : filler? ('/' :: cs) with
    | some f =>
      have long := length_filler?_slash hf
      exact ⟨Nat.le_of_lt long, fun he _ => absurd long (by rw [show f.1.text = ['/'] from he]; decide)⟩
    | none =>
      rw [hy]
      exact sign
  · rw [scan_symbol hs hp, hy]
    exact sign

theorem covers_scan {p : Pattern} (hu : u ∈ p.language) (hp : u <+: c :: cs) : Covers p u (scan c cs).1 := by
  cases p with
  | number => exact covers_number (.inl rfl) hu hp
  | fraction => exact covers_number (.inr rfl) hu hp
  | keyword k => exact covers_keyword hu hp
  | identifier => exact covers_identifier hu hp
  | symbol s => exact covers_symbol hu hp
  | lineComment => exact covers_lineComment hu hp
  | blockComment => exact covers_blockComment hu hp
  | newline =>
    obtain rfl : u = ['\n'] := hu
    obtain ⟨t, ht⟩ := hp
    obtain ⟨rfl, -⟩ := List.cons.inj ht
    exact ⟨Nat.le_refl _, fun _ _ => rfl⟩
  | blank => exact covers_blank hu hp

/-! ## What is taken is of a pattern -/

theorem mem_word? {s : Lexeme × List Char} (h : word? cs = some s) : s.1.text ∈ identifier.language := by
  unfold word? at h
  split at h
  · cases h
  · split at h
    · rename_i hc
      obtain rfl := Option.some.inj h
      exact mem_identifier.mpr ⟨_, _, rfl, hc, List.all_eq_true.mp List.all_takeWhile⟩
    · cases h

theorem mem_filler? {s : Lexeme × List Char} (h : filler? cs = some s) :
    ∃ p : Pattern, s.1.text ∈ p.language := by
  unfold filler? at h
  split at h
  · cases h
  · obtain rfl := Option.some.inj h
    exact ⟨newline, rfl⟩
  · obtain rfl := Option.some.inj h
    exact ⟨lineComment, mem_text_mul.mpr ⟨_, mem_many.mpr (List.all_eq_true.mp List.all_takeWhile), rfl⟩⟩
  · obtain ⟨⟨w, r⟩, hs, rfl⟩ := Option.map_eq_some_iff.mp h
    exact ⟨blockComment, mem_text_mul.mpr ⟨w, closing_of_splitClose hs, rfl⟩⟩
  · split at h
    · rename_i hc
      obtain rfl := Option.some.inj h
      exact ⟨blank, mem_single_mul.mpr ⟨_, _, rfl, hc, mem_many.mpr (List.all_eq_true.mp List.all_takeWhile)⟩⟩
    · cases h

theorem mem_numeral? {s : Lexeme × List Char} (h : numeral? cs = some s) :
    ∃ p : Pattern, s.1.text ∈ p.language := by
  obtain ⟨⟨n, r⟩, hs, rfl⟩ := Option.map_eq_some_iff.mp h
  rcases mem_number_or_fraction.mpr ⟨n, Numeral.isWritten_of_scan? hs, rfl⟩ with hw | hw
  · exact ⟨number, hw⟩
  · exact ⟨fraction, hw⟩

theorem mem_symbol? {s : Lexeme × List Char} (h : symbol? cs = some s) :
    ∃ p : Pattern, s.1.text ∈ p.language := by
  obtain ⟨y, -, rfl⟩ := Option.map_eq_some_iff.mp h
  exact ⟨symbol y, rfl⟩

theorem mem_scan (c : Char) (cs : List Char) :
    (∃ p : Pattern, (scan c cs).1.text ∈ p.language) ∨ scan c cs = (⟨none, [c]⟩, cs) := by
  unfold scan
  cases hw : word? (c :: cs) with
  | some s => exact .inl ⟨identifier, mem_word? hw⟩
  | none =>
    cases hf : filler? (c :: cs) with
    | some s => exact .inl (mem_filler? hf)
    | none =>
      cases hn : numeral? (c :: cs) with
      | some s => exact .inl (mem_numeral? hn)
      | none =>
        cases hs : symbol? (c :: cs) with
        | some s => exact .inl (mem_symbol? hs)
        | none => exact .inr rfl

theorem exists_token? {p : Pattern} {w : List Char} (h : w ∈ p.language) : ∃ t, p.token? w = some t := by
  cases p with
  | number =>
    obtain ⟨n, hn, rfl⟩ := isWritten_of_number (.inl rfl) h
    obtain ⟨m, hm⟩ := Number.ofChars_of_isWritten hn
    exact ⟨.real (m.toNumber false), by rw [Pattern.token?, hm]; rfl⟩
  | fraction =>
    obtain ⟨n, hn, rfl⟩ := isWritten_of_number (.inr rfl) h
    obtain ⟨m, hm⟩ := Number.ofChars_of_isWritten hn
    exact ⟨.real (m.toNumber false), by rw [Pattern.token?, hm]; rfl⟩
  | _ => exact ⟨_, rfl⟩

theorem ne_nil_of_mem {p : Pattern} {w : List Char} (h : w ∈ p.language) : w ≠ [] := by
  have written {n : Numeral} (hn : n.IsWritten) : n.text ≠ [] := by
    intro ht
    obtain ⟨hw, -⟩ := List.append_eq_nil_iff.mp ht
    obtain ⟨hw, hp⟩ := List.append_eq_nil_iff.mp hw
    have := hn.digit hw
    rw [hp] at this
    simp at this
  cases p with
  | number =>
    obtain ⟨n, hn, rfl⟩ := isWritten_of_number (.inl rfl) h
    exact written hn
  | fraction =>
    obtain ⟨n, hn, rfl⟩ := isWritten_of_number (.inr rfl) h
    exact written hn
  | keyword k =>
    obtain ⟨c, cs, rfl, -⟩ := mem_identifier.mp (identifier_of_keyword h)
    exact List.cons_ne_nil c cs
  | identifier =>
    obtain ⟨c, cs, rfl, -⟩ := mem_identifier.mp h
    exact List.cons_ne_nil c cs
  | symbol s =>
    rw [show w = s.text.toList from h]
    exact s.toList_text_ne_nil
  | lineComment | blockComment =>
    obtain ⟨v, -, rfl⟩ := mem_text_mul.mp h
    exact List.cons_ne_nil _ _
  | newline =>
    rw [show w = ['\n'] from h]
    exact List.cons_ne_nil _ _
  | blank =>
    obtain ⟨c, v, rfl, -⟩ := mem_single_mul.mp h
    exact List.cons_ne_nil c v

theorem exists_free {p : Pattern} {w : List Char} (h : w ∈ p.language) :
    ∃ q : Pattern, w ∈ q.language ∧ (q = .identifier → ∀ k : Keyword, w ∉ (keyword k).language) := by
  by_cases hk : ∃ k : Keyword, w ∈ (keyword k).language
  · obtain ⟨k, hk⟩ := hk
    exact ⟨keyword k, hk, fun he => nomatch he⟩
  · exact ⟨p, h, fun _ k hw => hk ⟨k, hw⟩⟩

theorem takes_scan (c : Char) (cs : List Char) :
    (∃ p : Pattern, p.Takes (scan c cs).1.text (scan c cs).2 ∧
    (scan c cs).1.token? = p.token? (scan c cs).1.text) ∨
    ((∀ (p : Pattern) (w : List Char), w ∈ p.language → ¬ w <+: c :: cs) ∧
    scan c cs = (⟨none, [c]⟩, cs)) := by
  have cuts := (cuts_scan c cs).1
  rcases mem_scan c cs with ⟨p, hp⟩ | hs
  · obtain ⟨q, hq, hf⟩ := exists_free hp
    have here : (scan c cs).1.text <+: c :: cs := ⟨_, cuts⟩
    refine .inl ⟨q, ⟨hq, hf, fun q' u hu hpre => ?_⟩, (covers_scan hq here).token rfl hf⟩
    rw [cuts] at hpre
    exact (covers_scan hu hpre).length_le
  · refine .inr ⟨fun p w hw hpre => ?_, hs⟩
    obtain ⟨q, hq, hf⟩ := exists_free hw
    have covers := covers_scan hq hpre
    rw [hs] at covers
    -- the one character would be that text, and so a token
    obtain ⟨d, v, rfl⟩ := List.exists_cons_of_ne_nil (ne_nil_of_mem hw)
    obtain ⟨t, ht⟩ := hpre
    obtain ⟨rfl, -⟩ := List.cons.inj ht
    obtain rfl : v = [] :=
      List.length_eq_zero_iff.mp (Nat.le_zero.mp (Nat.le_of_succ_le_succ covers.length_le))
    obtain ⟨t, ht⟩ := exists_token? hq
    cases ht.symm.trans (covers.token rfl hf).symm

end

theorem scan_of_takes {p : Pattern} {c : Char} {us r : List Char} (h : p.Takes (c :: us) r) :
    scan c (us ++ r) = (⟨p.token? (c :: us), c :: us⟩, r) := by
  have cuts := (cuts_scan c (us ++ r)).1
  have here : c :: us <+: c :: (us ++ r) := ⟨r, rfl⟩
  have covers := covers_scan h.mem here
  rcases takes_scan c (us ++ r) with ⟨q, hq, -⟩ | ⟨hn, -⟩
  · have hle := h.longest q _ hq.mem ⟨_, cuts⟩
    obtain ⟨htext, hrest⟩ := List.append_inj (cuts.trans (List.cons_append ..).symm)
      (Nat.le_antisymm hle covers.length_le)
    have htoken := covers.token htext h.free
    have hlexeme : (scan c (us ++ r)).1 = ⟨p.token? (c :: us), c :: us⟩ :=
      congr (congrArg Lexeme.mk htoken) htext
    exact Prod.ext hlexeme hrest
  · exact absurd here (hn p _ h.mem)

theorem scan_of_failure {c : Char} {r : List Char}
    (h : ∀ (p : Pattern) (w : List Char), w ∈ p.language → ¬ w <+: c :: r) : scan c r = (⟨none, [c]⟩, r) := by
  rcases takes_scan c r with ⟨p, hp, -⟩ | ⟨-, hs⟩
  · exact absurd ⟨_, (cuts_scan c r).1⟩ (h p _ hp.mem)
  · exact hs

end Lexeme

/-! ## All lexemes -/

theorem munches_lexemes (cs : List Char) : Munches cs (lexemes cs) := by
  induction cs using lexemes.induct with
  | case1 =>
    rw [lexemes]
    exact .nil
  | case2 c cs ih =>
    rw [lexemes]
    rcases Lexeme.takes_scan c cs with ⟨p, hp, ht⟩ | ⟨hn, hs⟩
    · have step := Munches.lexeme hp ih
      rwa [← ht, (Lexeme.cuts_scan c cs).1] at step
    · rw [hs] at ih ⊢
      exact .failure hn ih

theorem lexemes_of_munches {cs : List Char} {ls : List Lexeme} (h : Munches cs ls) : lexemes cs = ls := by
  induction h with
  | nil => rw [lexemes]
  | @lexeme p w r ls h _ ih =>
    obtain ⟨c, us, rfl⟩ := List.exists_cons_of_ne_nil (Lexeme.ne_nil_of_mem h.mem)
    rw [List.cons_append, lexemes, Lexeme.scan_of_takes h, ih]
  | failure h _ ih => rw [lexemes, Lexeme.scan_of_failure h, ih]

theorem munches_iff {cs : List Char} {ls : List Lexeme} : Munches cs ls ↔ lexemes cs = ls := by
  constructor
  · exact lexemes_of_munches
  · rintro rfl
    exact munches_lexemes cs

theorem Munches.text_of_failure {cs : List Char} {ls : List Lexeme} (h : Munches cs ls)
    {l : Lexeme} (hl : l ∈ ls) (ht : l.token? = none) : ∃ c, l.text = [c] := by
  induction h with
  | nil => cases hl
  | @lexeme p w r ls h _ ih =>
    rcases List.mem_cons.mp hl with rfl | hl
    · obtain ⟨t, hs⟩ := Lexeme.exists_token? h.mem
      cases hs.symm.trans ht
    · exact ih hl
  | @failure c r ls _ _ ih =>
    rcases List.mem_cons.mp hl with rfl | hl
    · exact ⟨c, rfl⟩
    · exact ih hl

theorem slice_of_error {source slice : String} (h : .error slice ∈ (readings source).map Reading.answer) :
    ∃ c, slice = .ofList [c] := by
  rw [answers_readings] at h
  rcases List.mem_append.mp h with h | h
  · obtain ⟨l, hl, ha⟩ := List.mem_filterMap.mp h
    unfold Lexeme.answer? at ha
    split at ha
    · cases ha
    · cases ha
    · rename_i ht
      obtain ⟨c, hc⟩ := (munches_lexemes _).text_of_failure hl ht
      cases ha
      exact ⟨c, by rw [hc]⟩
  · cases List.mem_singleton.mp h

/-! ## Literals -/

theorem Number.ofChars_of_mem {w : List Char}
    (h : w ∈ Pattern.number.language ∨ w ∈ Pattern.fraction.language) :
    ∃ v, ofChars w = .ok v ∧ v.isNaN = false ∧ isNegative v = false := by
  obtain ⟨n, hn, rfl⟩ := Pattern.mem_number_or_fraction.mp h
  obtain ⟨m, hm⟩ := ofChars_of_isWritten hn
  exact ⟨_, hm, m.isNaN_toNumber false, isNegative_toNumber m false⟩

theorem Number.ofChars_large : ofChars ['1', 'e', '3', '9'] = .ok (Magnitude.infinity.toNumber false) := by
  have scan : Numeral.scan? ['1', 'e', '3', '9'] = some (⟨['1'], [], ['e', '3', '9']⟩, []) := by decide
  have value : Numeral.magnitude ⟨['1'], [], ['e', '3', '9']⟩ = Magnitude.infinity := by decide +kernel
  exact ofChars_signed false rfl (List.cons_ne_nil _ _) (by rw [ofUnsigned, scan, ← value])

theorem Pattern.mem_number_large : ['1', 'e', '3', '9'] ∈ Pattern.number.language := by
  refine Language.mem_mul.mpr ⟨['1'], Language.mem_mul.mpr ⟨['1'], ?_, [], .inl rfl, rfl⟩,
    ['e', '3', '9'], ?_, rfl⟩
  · exact mem_digits.mpr ⟨by simp, List.all_eq_true.mp (by decide)⟩
  · exact mem_exponent?.mpr
      (.inr ⟨'e', [], ['3', '9'], rfl, .inl rfl, .inl rfl, by simp, List.all_eq_true.mp (by decide)⟩)

/-- The lexemes of a source are those that the patterns allow, and its answers are these lexemes without
what separates tokens; what is no token is one character. The texts of numbers are all read, as numbers
that bear no sign, but not all of them are finite. -/
theorem readings_munch (source : String) :
    (∀ ls, Munches source.toList ls ↔ lexemes source.toList = ls) ∧
    (readings source).map Reading.answer = (lexemes source.toList).filterMap Lexeme.answer? ++ [.ok .eot] ∧
    (∀ slice, .error slice ∈ (readings source).map Reading.answer → ∃ c, slice = .ofList [c]) ∧
    (∀ w, w ∈ Pattern.number.language ∨ w ∈ Pattern.fraction.language →
      ∃ v, Number.ofChars w = .ok v ∧ v.isNaN = false ∧ Number.isNegative v = false) ∧
    ∃ w ∈ Pattern.number.language, Number.ofChars w = .ok (Magnitude.infinity.toNumber false) :=
  ⟨fun _ => munches_iff, answers_readings source, fun _ => slice_of_error, fun _ => Number.ofChars_of_mem,
    _, Pattern.mem_number_large, Number.ofChars_large⟩

/-- A number that is not finished is cut behind its digits, where the mark of the exponent is a name,
and behind the sign stands a character that begins nothing. -/
theorem readings_munch_unfinished :
    Munches ['1', 'e', '+', '?'] [⟨(Number.ofChars ['1']).toOption.map .real, ['1']⟩,
      ⟨some (.identifier "e"), ['e']⟩, ⟨some (.symbol .plus), ['+']⟩, ⟨none, ['?']⟩] ∧
    ∃ v, Number.ofChars ['1', 'e', '3', '9'] = .ok v ∧ v.isNaN = false ∧ Number.isNegative v = false := by
  refine ⟨((readings_munch "1e+?").1 _).mpr ?_,
    (readings_munch "1e+?").2.2.2.1 _ (.inl Pattern.mem_number_large)⟩
  rw [show "1e+?".toList = ['1', 'e', '+', '?'] from rfl, lexemes,
    show Lexeme.scan '1' ['e', '+', '?'] = (⟨(Number.ofChars ['1']).toOption.map .real, ['1']⟩,
      ['e', '+', '?']) from rfl,
    lexemes, show Lexeme.scan 'e' ['+', '?'] = (⟨some (.identifier "e"), ['e']⟩, ['+', '?']) from rfl,
    lexemes, show Lexeme.scan '+' ['?'] = (⟨some (.symbol .plus), ['+']⟩, ['?']) from rfl,
    lexemes, show Lexeme.scan '?' [] = (⟨none, ['?']⟩, []) from rfl, lexemes]

end Turtle
