import Turtle.Number.Shortest

/-!
# Numbers read back

The text of a finite number is a numeral, the longest one in its place, and it is read as that number.
-/

namespace Turtle

/-! ## Runs of characters -/

section
variable {α : Type} {p : α → Bool} {l r : List α} (hl : ∀ a ∈ l, p a = true) (hr : ∀ a ∈ r.head?, p a = false)
include hl hr

theorem takeWhile_append_stop : (l ++ r).takeWhile p = l := by
  rw [List.takeWhile_append_of_pos hl]
  cases r with
  | nil => exact List.append_nil l
  | cons a r => rw [List.takeWhile_cons_of_neg (by rw [hr a rfl]; exact Bool.false_ne_true), List.append_nil]

theorem dropWhile_append_stop : (l ++ r).dropWhile p = r := by
  rw [List.dropWhile_append_of_pos hl]
  cases r with
  | nil => rfl
  | cons a r => exact List.dropWhile_cons_of_neg (by rw [hr a rfl]; exact Bool.false_ne_true)

end

namespace Decimal

/-! ## Digits -/

theorem isDigit_of_mem_lastDigits {k n : Nat} {c : Char} (h : c ∈ lastDigits k n) : c.isDigit = true := by
  induction k generalizing n with
  | zero => cases h
  | succ k ih =>
    rcases List.mem_append.mp h with h | h
    · exact ih h
    · obtain rfl := List.mem_singleton.mp h
      rw [Nat.isDigit_digitChar]
      exact decide_eq_true (Nat.mod_lt _ (by decide))

theorem length_lastDigits (k n : Nat) : (lastDigits k n).length = k := by
  induction k generalizing n with
  | zero => rfl
  | succ k ih => rw [lastDigits, List.length_append, ih, List.length_singleton]

theorem ofDigitChars_lastDigits (k n : Nat) : Nat.ofDigitChars 10 (lastDigits k n) (n / .pow 10 k) = n := by
  induction k generalizing n with
  | zero => simp [lastDigits]
  | succ k ih =>
    have hd : n / .pow 10 (k + 1) = n / 10 / .pow 10 k := by
      rw [Nat.div_div_eq_div_mul, Nat.mul_comm]
      rfl
    have hlt : n % 10 < 10 := Nat.mod_lt _ (by decide)
    rw [lastDigits, Nat.ofDigitChars_append, hd, ih, Nat.ofDigitChars_cons_digitChar_of_lt_ten hlt,
      Nat.ofDigitChars_nil]
    exact Nat.div_add_mod n 10

/-! ## The numeral that a decimal is written as -/

theorem nearest_zero {den : Nat} (h : 0 < den) : Magnitude.nearest 0 den = ⟨0, by decide⟩ := by
  have hr : Magnitude.roundHalfEven 0 den = 0 := by
    have := Magnitude.roundHalfEven_mul 0 h
    rwa [Nat.zero_mul] at this
  ext
  simp [Magnitude.nearest, hr]

theorem ofDecimal_neg (c : Nat) {p : Nat} (h : p ≤ 256) :
    Magnitude.ofDecimal c (0 - (p : Int)) = .nearest c (.pow 10 p) := by
  unfold Magnitude.ofDecimal
  by_cases hc : c = 0
  · rw [if_pos (.inl hc), hc, nearest_zero (show 0 < .pow 10 p from Nat.pow_pos (by decide))]
  · have small : ¬ (c = 0 ∨ 0 - (p : Int) < -(256 + (c.log2 : Int))) := by omega
    have large : ¬ 256 < 0 - (p : Int) := by omega
    rw [if_neg small, if_neg large, show (0 - (p : Int)).toNat = 0 by omega,
      show (-(0 - (p : Int))).toNat = p by omega]
    exact congrArg (Magnitude.nearest · _) (Nat.mul_one c)

def numeral (d : Decimal) : Numeral :=
  ⟨Nat.toDigits 10 (d.coefficient / .pow 10 d.places),
    if d.places = 0 then [] else '.' :: lastDigits d.places d.coefficient, []⟩

theorem text_numeral (d : Decimal) : d.numeral.text = d.text := by
  unfold numeral Numeral.text text
  split
  · simp [*]
  · simp

theorem magnitude_numeral {d : Decimal} (h : d.places ≤ 256) : d.numeral.magnitude = d.magnitude := by
  have value : Nat.ofDigitChars 10 (d.numeral.whole ++ d.numeral.point.drop 1) 0 = d.coefficient := by
    unfold numeral
    split
    · rename_i hp
      simp [hp]
    · rw [Nat.ofDigitChars_append, Nat.ofDigitChars_ten_toDigits]
      exact ofDigitChars_lastDigits ..
  have places : d.numeral.point.length - 1 = d.places := by
    unfold numeral
    split
    · simp [*]
    · simp [length_lastDigits]
  rw [Numeral.magnitude, value, places]
  exact ofDecimal_neg d.coefficient h

/-- What may stand behind a number without being taken as a part of it. -/
def Ends (r : List Char) : Prop := ∀ c ∈ r.head?, c.isDigit = false ∧ c ≠ '.' ∧ c ≠ 'e' ∧ c ≠ 'E'

theorem scan?_text {d : Decimal} {r : List Char} (hr : Ends r) :
    Numeral.scan? (d.text ++ r) = some (d.numeral, r) := by
  have digits : ∀ c ∈ Nat.toDigits 10 (d.coefficient / .pow 10 d.places), c.isDigit = true :=
    fun c hc => Nat.isDigit_of_mem_toDigits (by decide) (by decide) hc
  have rest : ∀ c ∈ r.head?, c.isDigit = false := fun c hc => (hr c hc).1
  have exponent : Numeral.splitExponent r = ([], r) := by
    cases r with
    | nil => rfl
    | cons c r =>
      obtain ⟨-, -, he, hE⟩ := hr c rfl
      simp [Numeral.splitExponent, he, hE]
  have whole : Nat.toDigits 10 (d.coefficient / .pow 10 d.places) ≠ [] := Nat.toDigits_ne_nil
  rw [← text_numeral, numeral, Numeral.text, Numeral.scan?]
  -- without places there is no point in the text, and none may follow it
  by_cases hp : d.places = 0
  · have point : Numeral.splitPoint r = ([], r) := by
      cases r with
      | nil => rfl
      | cons c r =>
        have := (hr c rfl).2.1
        unfold Numeral.splitPoint
        split
        · simp_all
        · rfl
    simp only [if_pos hp, List.append_nil, takeWhile_append_stop digits rest,
      dropWhile_append_stop digits rest, point, exponent]
    rw [if_neg (fun h => whole h.1)]
  · have stop : ∀ c ∈ ('.' :: (lastDigits d.places d.coefficient ++ r)).head?, c.isDigit = false := by
      intro c hc
      obtain rfl := Option.some.inj hc
      rfl
    have last : ∀ c ∈ lastDigits d.places d.coefficient, c.isDigit = true :=
      fun c hc => isDigit_of_mem_lastDigits hc
    have point : Numeral.splitPoint ('.' :: (lastDigits d.places d.coefficient ++ r)) =
        ('.' :: lastDigits d.places d.coefficient, r) := by
      rw [Numeral.splitPoint, takeWhile_append_stop last rest, dropWhile_append_stop last rest]
    simp only [if_neg hp, List.append_nil, List.append_assoc, List.cons_append,
      takeWhile_append_stop digits stop, dropWhile_append_stop digits stop, point, exponent]
    rw [if_neg (fun h => whole h.1)]

theorem exists_digit_text (d : Decimal) : ∃ c cs, d.text = c :: cs ∧ c.isDigit = true := by
  rw [← text_numeral]
  cases h : Nat.toDigits 10 (d.coefficient / .pow 10 d.places) with
  | nil => exact absurd h Nat.toDigits_ne_nil
  | cons c cs =>
    refine ⟨c, _, by rw [Numeral.text, numeral, h]; rfl, ?_⟩
    exact Nat.isDigit_of_mem_toDigits (b := 10) (by decide) (by decide) (h ▸ List.mem_cons_self)

/-! ## Bounds on the digits behind the point -/

theorem places_strip_le (c p : Nat) : (strip c p).places ≤ p := by
  induction p generalizing c with
  | zero => exact Nat.le_refl _
  | succ p ih =>
    unfold strip
    split
    · exact Nat.le_succ_of_le (ih _)
    · exact Nat.le_refl _

theorem places_shortest_le (m : Magnitude) : (shortest m).places ≤ 256 := by
  unfold shortest
  cases h : (candidates m).find? fun d => d.magnitude = m with
  | none =>
    rw [Option.getD_none, exact]
    exact Nat.le_trans (places_strip_le _ 149) (by decide)
  | some d =>
    obtain ⟨i, hi, hd⟩ := List.mem_flatMap.mp (List.mem_of_find?_eq_some h)
    rw [List.mem_range] at hi
    have fine : (-(top m - (i : Nat))).toNat ≤ 256 := by
      unfold top; omega
    have hd : d ∈ neighbours m (top m - (i : Nat)) := hd
    unfold neighbours at hd
    dsimp only at hd
    rw [Option.getD_some]
    split at hd <;> simp only [List.mem_cons, List.not_mem_nil, or_false] at hd <;>
      rcases hd with rfl | rfl <;>
      exact Nat.le_trans (places_strip_le ..) fine

end Decimal

namespace Number

theorem chars_toNumber (m : Magnitude) :
    chars (m.toNumber false) = if m.isFinite = true then (Decimal.shortest m).text else ['i', 'n', 'f'] := by
  rw [chars, magnitude?_toNumber, isNegative_toNumber]
  rfl

theorem chars_negative (m : Magnitude) : chars (m.toNumber true) = '-' :: chars (m.toNumber false) := by
  rw [chars, chars, magnitude?_toNumber, magnitude?_toNumber, isNegative_toNumber, isNegative_toNumber]
  rfl

theorem splitSign_text (d : Decimal) : Numeral.splitSign d.text = ([], d.text) := by
  obtain ⟨c, cs, hc, hd⟩ := d.exists_digit_text
  rw [hc, Numeral.splitSign]
  · rintro r he
    obtain rfl := (List.cons.inj he).1
    exact absurd hd (by decide)
  · rintro r he
    obtain rfl := (List.cons.inj he).1
    exact absurd hd (by decide)

theorem ofUnsigned_text {d : Decimal} (h : d.places ≤ 256) (negative : Bool) :
    ofUnsigned negative d.text = some (d.magnitude.toNumber negative) := by
  have scan := Decimal.scan?_text (d := d) (r := []) (by intro c hc; cases hc)
  rw [List.append_nil] at scan
  rw [ofUnsigned, scan, ← Decimal.magnitude_numeral h]

theorem ofChars_signed {cs : List Char} {v : Number} (negative : Bool) (hs : Numeral.splitSign cs = ([], cs))
    (hne : cs ≠ []) (h : ofUnsigned negative cs = some v) :
    ofChars ((if negative then ['-'] else []) ++ cs) = .ok v := by
  have sign : Numeral.splitSign ((if negative then ['-'] else []) ++ cs) =
      (if negative then ['-'] else [], cs) := by
    cases negative with
    | false => exact hs
    | true => rfl
  have marked : decide ((if negative then ['-'] else []) = ['-']) = negative := by cases negative <;> rfl
  rw [ofChars, if_neg (List.append_ne_nil_of_right_ne_nil _ hne), sign]
  dsimp only
  rw [marked, h]

theorem eq_nan {v : Number} (h : magnitude? v = none) : v = .ofBits 0x7fc00000 := by
  have hb := v.toBits.toNat_lt
  have large : 0x7f800000 < v.toBits.toNat % 0x80000000 := by
    refine Nat.lt_of_not_le fun hle => ?_
    rw [magnitude?, dif_pos hle] at h
    cases h
  obtain ⟨⟨⟨b⟩, valid⟩⟩ := v
  have large : 0x7f800000 < b.toNat % 0x80000000 := large
  have hb : b.toNat < 2 ^ 32 := hb
  obtain rfl : b = Float.Model.UnpackedFloat.packedNaN .binary32 := by
    refine valid.eq_packedNaN (BitVec.eq_of_toNat_eq ?_) fun hm => ?_
    · rw [Magnitude.toNat_unpackExponent]
      show b.toNat / 0x800000 % 0x100 = 255
      omega
    · have hm := congrArg BitVec.toNat hm
      rw [Magnitude.toNat_unpackMantissa, BitVec.toNat_ofNat, Nat.zero_mod] at hm
      have hm : b.toNat % 0x800000 = 0 := hm
      omega
  rfl

/-- Every number is read back from its text. -/
theorem ofChars_chars (v : Number) : ofChars (chars v) = .ok v := by
  rw [chars]
  cases h : magnitude? v with
  | none =>
    rw [eq_nan h]
    rfl
  | some m =>
    have digits : (Decimal.shortest m).text ≠ [] := by
      obtain ⟨c, cs, hc, -⟩ := (Decimal.shortest m).exists_digit_text
      rw [hc]
      exact List.cons_ne_nil _ _
    dsimp only
    rw [← toNumber_magnitude h, isNegative_toNumber]
    by_cases hf : m.isFinite = true
    · rw [if_pos hf]
      refine ofChars_signed _ (splitSign_text _) digits ?_
      rw [ofUnsigned_text (Decimal.places_shortest_le m), Decimal.magnitude_shortest]
    · have infinite : m = .infinity :=
        Magnitude.ext (Nat.le_antisymm m.code_le (Nat.le_of_not_lt fun hlt => hf (decide_eq_true hlt)))
      rw [if_neg hf, infinite]
      exact ofChars_signed _ rfl (by decide) rfl

end Number

end Turtle
