import Turtle.Proofs.Lexing.Spelled

/-!
# Numbers as they are written

The numerals that a text can hold, said by their pieces and not by how they are read.
`exists_scan?_of_isWritten`: what is read where one stands is at least as long. `ofChars_of_isWritten`:
each has a value, which is a number and bears no sign.
-/

namespace Turtle

theorem length_le_takeWhile {α : Type} {p : α → Bool} {l r : List α} (h : ∀ a ∈ l, p a = true) :
    l.length ≤ ((l ++ r).takeWhile p).length := by
  rw [List.takeWhile_append_of_pos h, List.length_append]
  exact Nat.le_add_right ..

namespace Numeral

def IsDigits (cs : List Char) : Prop := cs ≠ [] ∧ ∀ c ∈ cs, c.isDigit = true

def IsSign (cs : List Char) : Prop := cs = [] ∨ cs = ['+'] ∨ cs = ['-']

def IsPoint (cs : List Char) : Prop := ∃ ds, cs = '.' :: ds ∧ ∀ c ∈ ds, c.isDigit = true

def IsExponent (cs : List Char) : Prop :=
  ∃ mark sign ds, cs = mark :: (sign ++ ds) ∧ (mark = 'e' ∨ mark = 'E') ∧ IsSign sign ∧ IsDigits ds

/-- Digits before the point or right behind it, or both; the point and the exponent may be missing. -/
structure IsWritten (n : Numeral) : Prop where
  whole : ∀ c ∈ n.whole, c.isDigit = true
  point : n.point = [] ∨ IsPoint n.point
  exponent : n.exponent = [] ∨ IsExponent n.exponent
  digit : n.whole = [] → 2 ≤ n.point.length

/-! ## The longest numeral -/

theorem splitSign_of_isSign {sign ds : List Char} (hs : IsSign sign) (hd : IsDigits ds) (r : List Char) :
    splitSign (sign ++ (ds ++ r)) = (sign, ds ++ r) := by
  obtain ⟨hne, hd⟩ := hd
  cases ds with
  | nil => exact absurd rfl hne
  | cons d ds =>
    have digit := hd d List.mem_cons_self
    rcases hs with rfl | rfl | rfl
    · unfold splitSign
      split
      · rename_i he; cases he; cases digit
      · rename_i he; cases he; cases digit
      · rfl
    · rfl
    · rfl

theorem length_le_splitExponent {cs : List Char} (h : cs = [] ∨ IsExponent cs) (r : List Char) :
    cs.length ≤ (splitExponent (cs ++ r)).1.length := by
  rcases h with rfl | ⟨mark, sign, ds, rfl, hm, hs, hd⟩
  · exact Nat.zero_le _
  · have hlen := length_le_takeWhile (r := r) hd.2
    have hne : (ds ++ r).takeWhile Char.isDigit ≠ [] := by
      intro he
      rw [he] at hlen
      exact hd.1 (List.length_eq_zero_iff.mp (Nat.le_zero.mp hlen))
    rw [List.cons_append, splitExponent, List.append_assoc, splitSign_of_isSign hs hd, if_pos ⟨hm, hne⟩]
    simp only [List.length_cons, List.length_append]
    omega

theorem length_le_splitPoint {cs : List Char} (h : cs = [] ∨ IsPoint cs) (r : List Char) :
    cs.length ≤ (splitPoint (cs ++ r)).1.length := by
  rcases h with rfl | ⟨ds, rfl, hd⟩
  · exact Nat.zero_le _
  · rw [List.cons_append, splitPoint]
    exact Nat.succ_le_succ (length_le_takeWhile hd)

def Halts (r : List Char) : Prop := ∀ c ∈ r.head?, c.isDigit = false ∧ c ≠ '.'

theorem halts_exponent {cs : List Char} (h : IsExponent cs) (r : List Char) : Halts (cs ++ r) := by
  obtain ⟨mark, sign, ds, rfl, hm, -, -⟩ := h
  intro c hc
  obtain rfl := Option.some.inj hc
  rcases hm with rfl | rfl <;> decide

theorem splitPoint_of_halts {cs : List Char} (h : cs = [] ∨ IsPoint cs) {r : List Char} (hr : Halts r) :
    splitPoint (cs ++ r) = (cs, r) := by
  have digits : ∀ c ∈ r.head?, c.isDigit = false := fun c hc => (hr c hc).1
  rcases h with rfl | ⟨ds, rfl, hd⟩
  · rw [List.nil_append, splitPoint]
    rintro _ rfl
    exact (hr '.' rfl).2 rfl
  · rw [List.cons_append, splitPoint, takeWhile_append_stop hd digits, dropWhile_append_stop hd digits]

theorem stops_point {cs : List Char} (h : IsPoint cs) (r : List Char) :
    ∀ c ∈ (cs ++ r).head?, c.isDigit = false := by
  obtain ⟨ds, rfl, -⟩ := h
  intro c hc
  obtain rfl := Option.some.inj hc
  rfl

theorem exists_scan?_of_isWritten {n : Numeral} (h : n.IsWritten) (r : List Char) :
    ∃ n' r', scan? (n.text ++ r) = some (n', r') ∧ n.text.length ≤ n'.text.length := by
  obtain ⟨whole, point, exponent⟩ := n
  obtain ⟨hw, hp, he, hd⟩ := h
  dsimp only at hw hp he hd
  unfold scan? text
  dsimp only
  -- a piece that another one follows is read exactly; the last one may go on into what stands behind
  rcases he with rfl | he
  · rcases hp with rfl | hp
    · have hlen := length_le_takeWhile (r := r) hw
      have hne : ¬ ((whole ++ r).takeWhile Char.isDigit = [] ∧
          (splitPoint ((whole ++ r).dropWhile Char.isDigit)).1.length ≤ 1) := by
        intro hc
        rw [hc.1] at hlen
        have := hd (List.length_eq_zero_iff.mp (Nat.le_zero.mp hlen))
        simp at this
      rw [List.append_nil, List.append_nil, if_neg hne]
      refine ⟨_, _, rfl, ?_⟩
      simp only [List.length_append]
      omega
    · have hlen := length_le_splitPoint (.inr hp) r
      have stop := stops_point hp r
      rw [List.append_nil, List.append_assoc, takeWhile_append_stop hw stop, dropWhile_append_stop hw stop]
      rw [if_neg fun hc => by have := hd hc.1; omega]
      refine ⟨_, _, rfl, ?_⟩
      simp only [List.length_append]
      omega
  · have halts := halts_exponent he r
    have hlen := length_le_splitExponent (.inr he) r
    have stop : ∀ c ∈ (point ++ (exponent ++ r)).head?, c.isDigit = false := by
      rcases hp with rfl | hp
      · exact fun c hc => (halts c hc).1
      · exact stops_point hp _
    rw [List.append_assoc, List.append_assoc, takeWhile_append_stop hw stop, dropWhile_append_stop hw stop,
      splitPoint_of_halts hp halts]
    dsimp only
    rw [if_neg fun hc => by have := hd hc.1; omega]
    refine ⟨_, _, rfl, ?_⟩
    simp only [List.length_append]
    omega

/-! ## What is read is written -/

theorem isSign_splitSign (cs : List Char) : IsSign (splitSign cs).1 := by
  unfold splitSign
  split
  · exact .inr (.inl rfl)
  · exact .inr (.inr rfl)
  · exact .inl rfl

theorem isPoint_splitPoint (cs : List Char) : (splitPoint cs).1 = [] ∨ IsPoint (splitPoint cs).1 := by
  unfold splitPoint
  split
  · exact .inr ⟨_, rfl, List.all_eq_true.mp List.all_takeWhile⟩
  · exact .inl rfl

theorem isExponent_splitExponent (cs : List Char) :
    (splitExponent cs).1 = [] ∨ IsExponent (splitExponent cs).1 := by
  unfold splitExponent
  split
  · exact .inl rfl
  · dsimp only
    split
    · rename_i hc
      exact .inr ⟨_, _, _, rfl, hc.1, isSign_splitSign _, hc.2, List.all_eq_true.mp List.all_takeWhile⟩
    · exact .inl rfl

theorem isWritten_of_scan? {cs r : List Char} {n : Numeral} (h : scan? cs = some (n, r)) : n.IsWritten := by
  unfold scan? at h
  dsimp only at h
  split at h
  · cases h
  · rename_i hd
    obtain ⟨rfl, rfl⟩ := Prod.mk.inj (Option.some.inj h)
    exact ⟨List.all_eq_true.mp List.all_takeWhile, isPoint_splitPoint _, isExponent_splitExponent _,
      fun hw => Nat.lt_of_not_le fun hp => hd ⟨hw, hp⟩⟩

/-! ## Where a numeral ends -/

def isPart (c : Char) : Bool := c.isDigit || c ∈ ['.', 'e', 'E', '+', '-']

theorem isPart_of_mem {n : Numeral} (h : n.IsWritten) {c : Char} (hc : c ∈ n.text) : isPart c = true := by
  have digits {ds : List Char} (hd : ∀ d ∈ ds, d.isDigit = true) (hc : c ∈ ds) : isPart c = true :=
    Bool.or_eq_true_iff.mpr (.inl (hd c hc))
  simp only [text, List.mem_append] at hc
  rcases hc with (hc | hc) | hc
  · exact digits h.whole hc
  · rcases h.point with hp | ⟨ds, hp, hd⟩ <;> rw [hp] at hc
    · cases hc
    · rcases List.mem_cons.mp hc with rfl | hc
      · rfl
      · exact digits hd hc
  · rcases h.exponent with he | ⟨mark, sign, ds, he, hm, hs, -, hd⟩ <;> rw [he] at hc
    · cases hc
    · simp only [List.mem_cons, List.mem_append] at hc
      rcases hc with rfl | hc | hc
      · rcases hm with rfl | rfl <;> rfl
      · rcases hs with rfl | rfl | rfl
        · cases hc
        · obtain rfl := List.mem_singleton.mp hc
          rfl
        · obtain rfl := List.mem_singleton.mp hc
          rfl
      · exact digits hd hc

theorem scan?_of_isWritten {n : Numeral} (h : n.IsWritten) {r : List Char}
    (hr : ∀ c ∈ r.head?, isPart c = false) :
    ∃ n', scan? (n.text ++ r) = some (n', r) ∧ n'.text = n.text := by
  obtain ⟨n', r', hs, hl⟩ := exists_scan?_of_isWritten h r
  refine ⟨n', ?_⟩
  rcases List.append_eq_append_iff.mp (text_append_of_scan? hs) with ⟨us, ht, rfl⟩ | ⟨us, ht, rfl⟩
  · obtain rfl : us = [] := by
      rw [ht, List.length_append] at hl
      exact List.length_eq_zero_iff.mp (by omega)
    rw [List.append_nil] at ht
    exact ⟨hs, ht.symm⟩
  · cases us with
    | nil =>
      rw [List.append_nil] at ht
      exact ⟨hs, ht⟩
    | cons c us =>
      have part : isPart c = true :=
        isPart_of_mem (isWritten_of_scan? hs) (ht ▸ List.mem_append_right _ List.mem_cons_self)
      cases part.symm.trans (hr c rfl)

theorem exists_head_of_isWritten {n : Numeral} (h : n.IsWritten) :
    ∃ c t, n.text = c :: t ∧ (c.isDigit = true ∨ c = '.') := by
  obtain ⟨n', hs, ht⟩ := scan?_of_isWritten h (r := []) (by simp)
  rw [← ht]
  exact exists_head_text hs

theorem splitSign_of_isWritten {n : Numeral} (h : n.IsWritten) {sign : List Char} (hs : IsSign sign) :
    splitSign (sign ++ n.text) = (sign, n.text) := by
  obtain ⟨c, t, ht, hc⟩ := exists_head_of_isWritten h
  rcases hs with rfl | rfl | rfl
  · rw [List.nil_append, ht, splitSign]
    · rintro _ he
      obtain rfl := (List.cons.inj he).1
      rcases hc with hc | hc <;> cases hc
    · rintro _ he
      obtain rfl := (List.cons.inj he).1
      rcases hc with hc | hc <;> cases hc
  · rfl
  · rfl

end Numeral

/-! ## The value -/

theorem Magnitude.isNaN_toNumber (m : Magnitude) (negative : Bool) : (m.toNumber negative).isNaN = false := by
  have hc := m.code_le
  have hn := Bool.toNat_le negative
  have hb : (m.toNumber negative).toBits.toBitVec.toNat = m.bits negative := m.toNat_bits negative
  show (Float.Model.UnpackedFloat.unpack .binary32 (m.toNumber negative).toBits.toBitVec).isNaN = false
  unfold Float.Model.UnpackedFloat.unpack
  dsimp only
  by_cases last : @Float.Model.UnpackedFloat.unpackExponent .binary32
    (m.toNumber negative).toBits.toBitVec = -1#_
  · have none :
        @Float.Model.UnpackedFloat.unpackMantissa .binary32 (m.toNumber negative).toBits.toBitVec = 0#_ := by
      apply BitVec.eq_of_toNat_eq
      have last := congrArg BitVec.toNat last
      rw [toNat_unpackExponent, hb, show (-1#_ : BitVec (Float.Model.Format.exponentBits .binary32)).toNat =
        255 from rfl] at last
      rw [toNat_unpackMantissa, hb, BitVec.toNat_ofNat, Nat.zero_mod]
      unfold bits at *
      omega
    rw [if_pos last, if_pos none]
    rfl
  · rw [if_neg last]
    by_cases first : @Float.Model.UnpackedFloat.unpackExponent .binary32
      (m.toNumber negative).toBits.toBitVec = 0#_
    · rw [if_pos first]
      by_cases none : @Float.Model.UnpackedFloat.unpackMantissa .binary32
        (m.toNumber negative).toBits.toBitVec = 0#_
      · rw [dif_pos none]
        rfl
      · rw [dif_neg none]
        rfl
    · rw [if_neg first]
      rfl

namespace Number

theorem isNaN_of_magnitude? {v : Number} (h : magnitude? v = none) : v.isNaN = true := by
  rw [eq_nan h]
  rfl

theorem isLiteral_iff {v : Number} : Lexeme.IsLiteral v ↔ v.isNaN = false ∧ isNegative v = false := by
  constructor
  · intro h
    obtain ⟨m, rfl⟩ := h
    exact ⟨m.isNaN_toNumber false, isNegative_toNumber m false⟩
  · intro h
    obtain ⟨some, sign⟩ := h
    cases hm : magnitude? v with
    | none => cases some.symm.trans (isNaN_of_magnitude? hm)
    | some m => exact ⟨m, by rw [← sign, toNumber_magnitude hm]⟩

/-- Every numeral has a magnitude, and a sign before it is the sign of the number. -/
theorem ofChars_sign_of_isWritten {n : Numeral} (h : n.IsWritten) :
    ∃ m : Magnitude, ∀ sign, Numeral.IsSign sign →
    ofChars (sign ++ n.text) = .ok (m.toNumber (sign = ['-'])) := by
  obtain ⟨n', scan, -⟩ := Numeral.scan?_of_isWritten h (r := []) (by simp)
  obtain ⟨c, t, ht, -⟩ := Numeral.exists_head_of_isWritten h
  rw [List.append_nil] at scan
  refine ⟨n'.magnitude, fun sign hs => ?_⟩
  have written : sign ++ n.text ≠ [] := by
    rw [ht]
    exact List.append_ne_nil_of_right_ne_nil _ (List.cons_ne_nil _ _)
  rw [ofChars, if_neg written, Numeral.splitSign_of_isWritten h hs]
  dsimp only
  rw [ofUnsigned, scan]

theorem ofChars_of_isWritten {n : Numeral} (h : n.IsWritten) :
    ∃ m : Magnitude, ofChars n.text = .ok (m.toNumber false) := by
  obtain ⟨m, value⟩ := ofChars_sign_of_isWritten h
  exact ⟨m, value [] (.inl rfl)⟩

end Number

end Turtle
