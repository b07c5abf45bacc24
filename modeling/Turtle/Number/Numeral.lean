import Turtle.Number.Magnitude

/-!
# Reading numbers

A `Numeral` is an unsigned decimal in the three pieces it is written in. `Numeral.scan?` takes the longest one
that a text begins with, `Numeral.magnitude` is its value rounded once, and `Number.ofText` reads a whole text
that may bear a sign or name an infinity or no number.
-/

namespace Turtle

/-- Digits, a point with the digits behind it, and an exponent with its mark and sign; each may be missing. -/
structure Numeral where
  whole : List Char
  point : List Char
  exponent : List Char
deriving DecidableEq

namespace Numeral

def text (n : Numeral) : List Char := n.whole ++ n.point ++ n.exponent

/-! ## The pieces -/

def splitPoint : List Char → List Char × List Char
  | '.' :: r => ('.' :: r.takeWhile Char.isDigit, r.dropWhile Char.isDigit)
  | r => ([], r)

def splitSign : List Char → List Char × List Char
  | '+' :: r => (['+'], r)
  | '-' :: r => (['-'], r)
  | r => ([], r)

/-- An exponent counts only if a digit follows its mark and sign. -/
def splitExponent : List Char → List Char × List Char
  | [] => ([], [])
  | c :: r =>
    let signed := splitSign r
    let digits := signed.2.takeWhile Char.isDigit
    if (c = 'e' ∨ c = 'E') ∧ digits ≠ [] then (c :: signed.1 ++ digits, signed.2.dropWhile Char.isDigit)
    else ([], c :: r)

theorem splitPoint_append (cs : List Char) : (splitPoint cs).1 ++ (splitPoint cs).2 = cs := by
  unfold splitPoint; split <;> simp

theorem splitSign_append (cs : List Char) : (splitSign cs).1 ++ (splitSign cs).2 = cs := by
  unfold splitSign; split <;> simp

theorem splitExponent_append (cs : List Char) : (splitExponent cs).1 ++ (splitExponent cs).2 = cs := by
  unfold splitExponent
  split
  · rfl
  · rename_i c r
    dsimp only
    split
    · simp [splitSign_append]
    · rfl

/-- The longest numeral at the front, and what follows it. There is one if a digit stands before or right
behind the point. -/
def scan? (cs : List Char) : Option (Numeral × List Char) :=
  let whole := cs.takeWhile Char.isDigit
  let pointed := splitPoint (cs.dropWhile Char.isDigit)
  let scaled := splitExponent pointed.2
  if whole = [] ∧ pointed.1.length ≤ 1 then none
  else some (⟨whole, pointed.1, scaled.1⟩, scaled.2)

theorem text_append_of_scan? {cs rest : List Char} {n : Numeral} (h : scan? cs = some (n, rest)) :
    n.text ++ rest = cs := by
  unfold scan? at h
  dsimp only at h
  split at h
  · exact absurd h (by simp)
  · obtain ⟨rfl, rfl⟩ := Prod.mk.inj (Option.some.inj h)
    simp only [text, List.append_assoc, splitExponent_append, splitPoint_append,
      List.takeWhile_append_dropWhile]

theorem text_ne_nil_of_scan? {cs rest : List Char} {n : Numeral} (h : scan? cs = some (n, rest)) :
    n.text ≠ [] := by
  unfold scan? at h
  dsimp only at h
  split at h
  · exact absurd h (by simp)
  · rename_i hd
    obtain ⟨rfl, rfl⟩ := Prod.mk.inj (Option.some.inj h)
    intro ht
    simp only [text, List.append_eq_nil_iff] at ht
    exact hd ⟨ht.1.1, by simp [ht.1.2]⟩

/-! ## The value -/

def exponentValue : List Char → Int
  | [] => 0
  | _ :: '-' :: ds => - (Nat.ofDigitChars 10 ds 0 : Int)
  | _ :: '+' :: ds => Nat.ofDigitChars 10 ds 0
  | _ :: ds => Nat.ofDigitChars 10 ds 0

end Numeral

/-- The magnitude nearest to `coefficient * 10 ^ exponent`. Beyond the bounds tested first the answer is
known, and the power need not be computed. -/
def Magnitude.ofDecimal (coefficient : Nat) (exponent : Int) : Magnitude :=
  if coefficient = 0 ∨ exponent < -(256 + (coefficient.log2 : Int)) then ⟨0, by decide⟩
  else if 256 < exponent then infinity
  else nearest (coefficient * .pow 10 exponent.toNat) (.pow 10 (-exponent).toNat)

def Numeral.magnitude (n : Numeral) : Magnitude :=
  .ofDecimal (Nat.ofDigitChars 10 (n.whole ++ n.point.drop 1) 0)
    (exponentValue n.exponent - (n.point.length - 1 : Nat))

namespace Number

inductive TextError
  | empty
  | invalid
deriving DecidableEq

def TextError.message : TextError → String
  | .empty => "cannot parse float from empty string"
  | .invalid => "invalid float literal"

def ofName (negative : Bool) (name : List Char) : Option Number :=
  if name = ['i', 'n', 'f'] ∨ name = ['i', 'n', 'f', 'i', 'n', 'i', 't', 'y'] then
    some (Magnitude.infinity.toNumber negative)
  else if name = ['n', 'a', 'n'] then some (.ofBits 0x7fc00000)
  else none

def ofUnsigned (negative : Bool) (cs : List Char) : Option Number :=
  match Numeral.scan? cs with
  | some (n, []) => some (n.magnitude.toNumber negative)
  | _ => ofName negative (cs.map Char.toLower)

def ofChars (cs : List Char) : Except TextError Number :=
  if cs = [] then .error .empty
  else
    let (sign, body) := Numeral.splitSign cs
    match ofUnsigned (sign = ['-']) body with
    | some v => .ok v
    | none => .error .invalid

def ofText (s : String) : Except TextError Number := ofChars s.toList

end Number

end Turtle
