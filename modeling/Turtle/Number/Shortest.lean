import Turtle.Number.Numeral

/-!
# Writing numbers

A number is written by the fewest digits that read back as it, never with an exponent. `Decimal.shortest`
tries the two neighbours of the number on ever finer decimal grids; the first that reads back is taken, the
nearer one before the other. `magnitude_shortest` says that the text chosen does read back.
-/

namespace Turtle

/-- The number `coefficient / 10 ^ places`. -/
structure Decimal where
  coefficient : Nat
  places : Nat
deriving DecidableEq

namespace Decimal

def magnitude (d : Decimal) : Magnitude := .nearest d.coefficient (.pow 10 d.places)

def strip (coefficient : Nat) : Nat → Decimal
  | 0 => ⟨coefficient, 0⟩
  | places + 1 =>
    if coefficient % 10 = 0 then strip (coefficient / 10) places else ⟨coefficient, places + 1⟩

theorem magnitude_strip (c p : Nat) : (strip c p).magnitude = (Decimal.mk c p).magnitude := by
  induction p generalizing c with
  | zero => rfl
  | succ p ih =>
    unfold strip
    split
    · rename_i h
      have hc : c / 10 * 10 = c := Nat.div_mul_cancel (Nat.dvd_of_mod_eq_zero h)
      rw [ih, magnitude, magnitude, ← Magnitude.nearest_mul_mul _ _ (show 0 < 10 by decide), hc]
      rfl
    · rfl

def exact (m : Magnitude) : Decimal := strip (m.steps * .pow 5 149) 149

theorem magnitude_exact (m : Magnitude) : (exact m).magnitude = m := by
  have h : Nat.pow 10 149 = 1 <<< 149 * .pow 5 149 := by decide
  rw [exact, magnitude_strip, magnitude, h, Magnitude.nearest_mul_mul _ _ (by decide),
    Magnitude.nearest_steps]

/-! ## The fewest digits -/

/-- The two neighbours of a number among the multiples of `10 ^ unit`, the nearer first; in the middle between
them the upper one is first. -/
def neighbours (m : Magnitude) (unit : Int) : List Decimal :=
  let up := .pow 10 unit.toNat
  let places := (-unit).toNat
  let num := m.steps * .pow 10 places
  let den := up <<< 149
  let below := strip (num / den * up) places
  let above := strip ((num / den + 1) * up) places
  if den ≤ 2 * (num % den) then [above, below] else [below, above]

/-- A power of ten above the number, by its binary digits: 0.30103 is a little more than the logarithm
of 2. -/
def top (m : Magnitude) : Int := ((m.steps.log2 : Int) + 1 - 149) * 30103 / 100000 + 1

def candidates (m : Magnitude) : List Decimal :=
  (List.range 12).flatMap fun i => neighbours m (top m - (i : Nat))

def shortest (m : Magnitude) : Decimal :=
  ((candidates m).find? fun d => d.magnitude = m).getD (exact m)

theorem magnitude_shortest (m : Magnitude) : (shortest m).magnitude = m := by
  unfold shortest
  cases h : (candidates m).find? fun d => d.magnitude = m with
  | none => rw [Option.getD_none, magnitude_exact]
  | some d => simpa only [Option.getD_some, decide_eq_true_eq] using List.find?_some h

/-! ## Digits -/

def lastDigits : Nat → Nat → List Char
  | 0, _ => []
  | count + 1, n => lastDigits count (n / 10) ++ [(n % 10).digitChar]

def text (d : Decimal) : List Char :=
  if d.places = 0 then Nat.toDigits 10 d.coefficient
  else Nat.toDigits 10 (d.coefficient / .pow 10 d.places) ++ '.' :: lastDigits d.places d.coefficient

end Decimal

namespace Number

/-- A number in the fewest digits that read back as it, the nearest such, written without an exponent. -/
def chars (v : Number) : List Char :=
  match magnitude? v with
  | none => ['N', 'a', 'N']
  | some m =>
    (if isNegative v then ['-'] else []) ++ if m.isFinite then (Decimal.shortest m).text else ['i', 'n', 'f']

def text (v : Number) : String := .ofList (chars v)

end Number

end Turtle
