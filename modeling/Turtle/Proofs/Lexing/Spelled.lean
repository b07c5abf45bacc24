import Turtle.Proofs.Lexing.Spelling

/-!
# The tokens that a text can spell

A name is a word that the language has not taken, and a number bears no sign: no other names and numbers
come from a text, however it is cut, and it never spells its own end (`isSpelled_of_mem`).
-/

namespace Turtle

namespace Lexeme

/-- A word that is not taken by the language. -/
structure IsName (x : String) : Prop where
  isWord : ∃ c cs, x.toList = c :: cs ∧ isWordStart c = true ∧ ∀ d ∈ cs, isWordRest d = true
  free : Keyword.ofText? x = none

/-- A number as one can be written, without a sign: no text spells the value that is no number. -/
def IsLiteral (v : Number) : Prop := ∃ m : Magnitude, v = m.toNumber false

end Lexeme

namespace Token

open Lexeme

def IsSpelled : Token → Prop
  | .identifier x => IsName x
  | .real v => IsLiteral v
  | .eot => False
  | _ => True

theorem isSpelled_ofWord {c : Char} {cs : List Char} (hc : isWordStart c = true)
    (hcs : ∀ d ∈ cs, isWordRest d = true) : (ofWord (.ofList (c :: cs))).IsSpelled := by
  unfold ofWord
  split
  · trivial
  · rename_i h
    exact ⟨⟨c, cs, String.toList_ofList, hc, hcs⟩, h⟩

end Token

namespace Number

theorem isLiteral_of_ofName {cs : List Char} {v : Number} (hn : cs ≠ ['n', 'a', 'n'])
    (h : ofName false cs = some v) :
    Lexeme.IsLiteral v := by
  unfold ofName at h
  split at h
  · exact ⟨.infinity, (Option.some.inj h).symm⟩
  · cases h

theorem isLiteral_of_ofUnsigned {cs : List Char} {v : Number} (hn : cs.map Char.toLower ≠ ['n', 'a', 'n'])
    (h : ofUnsigned false cs = some v) : Lexeme.IsLiteral v := by
  unfold ofUnsigned at h
  split at h
  · exact ⟨_, (Option.some.inj h).symm⟩
  · exact isLiteral_of_ofName hn h

end Number

theorem Numeral.exists_head_text {cs r : List Char} {n : Numeral} (h : scan? cs = some (n, r)) :
    ∃ c t, n.text = c :: t ∧ (c.isDigit = true ∨ c = '.') := by
  unfold scan? at h
  dsimp only at h
  split at h
  · cases h
  · rename_i hd
    obtain ⟨rfl, rfl⟩ := Prod.mk.inj (Option.some.inj h)
    cases cs with
    | nil => exact absurd ⟨rfl, Nat.zero_le _⟩ hd
    | cons c cs =>
      by_cases hc : c.isDigit = true
      · rw [text, List.takeWhile_cons_of_pos hc]
        exact ⟨c, _, rfl, .inl hc⟩
      · rw [List.takeWhile_cons_of_neg hc, List.dropWhile_cons_of_neg hc] at hd
        rw [text, List.takeWhile_cons_of_neg hc, List.dropWhile_cons_of_neg hc]
        by_cases hp : c = '.'
        · rw [hp]
          exact ⟨'.', _, rfl, .inr rfl⟩
        · rw [splitPoint] at hd
          · exact absurd ⟨rfl, Nat.zero_le _⟩ hd
          · exact fun _ he => hp (List.cons.inj he).1

namespace Number

theorem isLiteral_of_scan {cs r : List Char} {n : Numeral} (hn : Numeral.scan? cs = some (n, r)) {v : Number}
    (h : ofChars n.text = .ok v) : Lexeme.IsLiteral v := by
  -- neither a sign nor the letters of a name begin a numeral
  obtain ⟨c, t, ht, hc⟩ := Numeral.exists_head_text hn
  have apart {d : Char} (hd : d.isDigit = false) (hp : d ≠ '.') : c ≠ d := by
    rintro rfl
    rcases hc with hc | hc
    · rw [hd] at hc; cases hc
    · exact hp hc
  have sign : Numeral.splitSign (c :: t) = ([], c :: t) := by
    rw [Numeral.splitSign]
    · exact fun _ he => apart rfl (by decide) (List.cons.inj he).1
    · exact fun _ he => apart rfl (by decide) (List.cons.inj he).1
  have small : (c :: t).map Char.toLower ≠ ['n', 'a', 'n'] := by
    intro he
    have hl : c.toLower = 'n' := (List.cons.inj he).1
    unfold Char.toLower at hl
    split at hl
    · rename_i hu
      have hle : c.toNat ≤ 57 := by
        rcases hc with hc | rfl
        · exact (Char.isDigit_iff_toNat.mp hc).2
        · decide
      have hge : 65 ≤ c.toNat := UInt32.le_iff_toNat_le.mp hu.1
      omega
    · exact apart rfl (by decide) hl
  rw [ht, ofChars, if_neg (List.cons_ne_nil _ _), sign] at h
  dsimp only at h
  split at h
  · rename_i v' hv
    cases h
    exact isLiteral_of_ofUnsigned small hv
  · cases h

end Number

namespace Lexeme

theorem token_of_filler? {cs : List Char} {s : Lexeme × List Char} (h : filler? cs = some s) :
    ∃ f, s.1.token? = some (.filler f) := by
  unfold filler? at h
  split at h
  · cases h
  · obtain rfl := Option.some.inj h
    exact ⟨_, rfl⟩
  · obtain rfl := Option.some.inj h
    exact ⟨_, rfl⟩
  · obtain ⟨_, -, rfl⟩ := Option.map_eq_some_iff.mp h
    exact ⟨_, rfl⟩
  · split at h
    · obtain rfl := Option.some.inj h
      exact ⟨_, rfl⟩
    · cases h

theorem isSpelled_of_scan {c : Char} {cs : List Char} {t : Token} (h : (scan c cs).1.token? = some t) :
    t.IsSpelled := by
  by_cases hc : isWordStart c = true
  · rw [scan_word hc] at h
    obtain rfl := Option.some.inj h
    exact Token.isSpelled_ofWord hc (List.all_eq_true.mp List.all_takeWhile)
  -- what is no word is a separator, a number or a sign, in this order, or no token
  · have hw : word? (c :: cs) = none := by rw [word?, if_neg hc]
    rw [scan, hw] at h
    cases hf : filler? (c :: cs) with
    | some s =>
      obtain ⟨f, hs⟩ := token_of_filler? hf
      rw [hf] at h
      cases hs.symm.trans h
      trivial
    | none =>
      rw [hf] at h
      cases hn : numeral? (c :: cs) with
      | some s =>
        rw [hn] at h
        obtain ⟨⟨n, r⟩, hscan, rfl⟩ := Option.map_eq_some_iff.mp hn
        obtain ⟨v, hv, rfl⟩ := Option.map_eq_some_iff.mp h
        apply Number.isLiteral_of_scan hscan
        cases ho : Number.ofChars n.text with
        | error e => rw [ho] at hv; cases hv
        | ok v' => rw [ho] at hv; cases hv; rfl
      | none =>
        rw [hn] at h
        cases hs : symbol? (c :: cs) with
        | some s =>
          rw [hs] at h
          obtain ⟨y, -, rfl⟩ := Option.map_eq_some_iff.mp hs
          cases h
          trivial
        | none =>
          rw [hs] at h
          cases h

theorem exists_scan_of_mem {cs : List Char} {l : Lexeme} (h : l ∈ lexemes cs) : ∃ c r, l = (scan c r).1 := by
  induction cs using lexemes.induct with
  | case1 => rw [lexemes] at h; cases h
  | case2 c cs ih =>
    rw [lexemes] at h
    rcases List.mem_cons.mp h with h | h
    · exact ⟨c, cs, h⟩
    · exact ih h

end Lexeme

theorem isSpelled_of_mem {cs : List Char} {t : Token} (h : .ok t ∈ answersOf cs) : t.IsSpelled := by
  obtain ⟨l, hl, ha⟩ := List.mem_filterMap.mp h
  obtain ⟨c, r, rfl⟩ := Lexeme.exists_scan_of_mem hl
  apply @Lexeme.isSpelled_of_scan c r t
  unfold Lexeme.answer? at ha
  split at ha
  · cases ha
  · rename_i t' _ ht
    cases ha
    exact ht
  · cases ha

end Turtle
