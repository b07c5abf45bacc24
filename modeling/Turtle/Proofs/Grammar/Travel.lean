import Turtle.Grammar.Descent

/-!
# Moving a cursor on

`c.Over w c'`: from `c` the tokens `w` are taken one by one, none of them the end of the text, and `c'`
is where the cursor stands then. Each step makes the readings that are `left` fewer, which is what the
bounds of the rules count.
-/

namespace Turtle.Cursor

/-- The readings from the lookahead on; none once the text has ended. -/
def left (c : Cursor) : Nat := if c.token = .eot then 0 else c.rest.length + 1

theorem left_of_eot {c : Cursor} (h : c.token = .eot) : c.left = 0 := if_pos h

theorem left_pos {c : Cursor} (h : c.token ≠ .eot) : c.left = c.rest.length + 1 := if_neg h

theorem left_le (c : Cursor) : c.left ≤ c.rest.length + 1 := by
  unfold left; split <;> omega

theorem next_eq_ok {line : Nat} {rs : List Reading} {c : Cursor} (h : next line rs = .ok c) :
    (rs = [] ∧ c.token = .eot) ∨ ∃ r, r.answer = .ok c.token ∧ r.line = c.line ∧ rs = r :: c.rest := by
  unfold next at h
  split at h
  · obtain rfl := Except.ok.inj h
    exact .inl ⟨rfl, rfl⟩
  · rename_i r rest
    split at h
    · rename_i t ha
      obtain rfl := Except.ok.inj h
      exact .inr ⟨r, ha, rfl, rfl⟩
    · cases h

theorem next_eq_error {line : Nat} {rs : List Reading} {e : SyntaxError} (h : next line rs = .error e) :
    ∃ r rest slice, rs = r :: rest ∧ r.answer = .error slice ∧ e = ⟨r.line, .invalidCharacter slice⟩ := by
  unfold next at h
  split at h
  · cases h
  · rename_i r rest
    split at h
    · cases h
    · rename_i slice ha
      obtain rfl := Except.error.inj h
      exact ⟨r, rest, slice, rfl, ha, rfl⟩

theorem left_next {line : Nat} {rs : List Reading} {c : Cursor} (h : next line rs = .ok c) :
    c.left ≤ rs.length := by
  rcases next_eq_ok h with ⟨-, ht⟩ | ⟨r, -, -, rfl⟩
  · rw [left_of_eot ht]
    exact Nat.zero_le _
  · exact left_le c

theorem left_advance {c c' : Cursor} (ht : c.token ≠ .eot) (h : c.advance = .ok c') : c'.left < c.left := by
  rw [left_pos ht]
  exact Nat.lt_succ_of_le (left_next h)

inductive Over : Cursor → List Token → Cursor → Prop
  | refl {c : Cursor} : Over c [] c
  | step {c c₁ c' : Cursor} {w : List Token} (ht : c.token ≠ .eot) (ha : c.advance = .ok c₁)
    (h : Over c₁ w c') : Over c (c.token :: w) c'

namespace Over

variable {c c₁ c' d d₁ d' : Cursor} {t : Token} {w v : List Token}

theorem one (ht : c.token ≠ .eot) (ha : c.advance = .ok c₁) : c.Over [c.token] c₁ := .step ht ha .refl

theorem nil_iff : c.Over [] c' ↔ c = c' := by
  constructor
  · intro h; cases h; rfl
  · rintro rfl; exact .refl

theorem cons_iff : c.Over (t :: w) c' ↔ c.token = t ∧ t ≠ .eot ∧ ∃ c₁, c.advance = .ok c₁ ∧ c₁.Over w c' := by
  constructor
  · intro h
    cases h with
    | step ht ha h => exact ⟨rfl, ht, _, ha, h⟩
  · intro h
    obtain ⟨rfl, ht, c₁, ha, h⟩ := h
    exact .step ht ha h

theorem append_iff : c.Over (w ++ v) c' ↔ ∃ c₁, c.Over w c₁ ∧ c₁.Over v c' := by
  induction w generalizing c with
  | nil =>
    constructor
    · intro h; exact ⟨c, .refl, h⟩
    · intro h
      obtain ⟨c₁, h, hv⟩ := h
      obtain rfl := nil_iff.mp h
      exact hv
  | cons t w ih =>
    simp only [List.cons_append, cons_iff, ih]
    constructor
    · intro h
      obtain ⟨ht, hn, c₁, ha, c₂, hw, hv⟩ := h
      exact ⟨c₂, ⟨ht, hn, c₁, ha, hw⟩, hv⟩
    · intro h
      obtain ⟨c₂, ⟨ht, hn, c₁, ha, hw⟩, hv⟩ := h
      exact ⟨ht, hn, c₁, ha, c₂, hw, hv⟩

theorem append (hw : c.Over w c₁) (hv : c₁.Over v c') : c.Over (w ++ v) c' := append_iff.mpr ⟨c₁, hw, hv⟩

theorem left_add (h : c.Over w c') : c'.left + w.length ≤ c.left := by
  induction h with
  | refl => exact Nat.le_refl _
  | step ht ha _ ih =>
    have := left_advance ht ha
    rw [List.length_cons]; omega

theorem left_le (h : c.Over w c') : c'.left ≤ c.left := Nat.le_trans (Nat.le_add_right ..) h.left_add

theorem uncons (h : c.Over (t :: w) c') :
    c.token = t ∧ ∃ c₁, c.advance = .ok c₁ ∧ c₁.left < c.left ∧ c₁.Over w c' := by
  obtain ⟨rfl, hn, c₁, ha, h₁⟩ := cons_iff.mp h
  exact ⟨rfl, c₁, ha, left_advance hn ha, h₁⟩

theorem not_mem_eot (h : c.Over w c') : .eot ∉ w := by
  induction h with
  | refl => exact List.not_mem_nil
  | step ht _ _ ih => rw [List.mem_cons, not_or]; exact ⟨Ne.symm ht, ih⟩

theorem head (h : c.Over (t :: w) c') : c.token = t := (cons_iff.mp h).1

theorem one_iff : c.Over [t] c' ↔ c.token = t ∧ t ≠ .eot ∧ c.advance = .ok c' := by
  rw [cons_iff]
  constructor
  · intro h
    obtain ⟨ht, hn, c₁, ha, h⟩ := h
    exact ⟨ht, hn, nil_iff.mp h ▸ ha⟩
  · intro h
    obtain ⟨ht, hn, ha⟩ := h
    exact ⟨ht, hn, c', ha, .refl⟩

theorem expect (h : c.Over [t] c') : c.expect t.kind = .ok c' := by
  obtain ⟨ht, -, ha⟩ := one_iff.mp h
  rw [Cursor.expect, if_pos (by rw [ht]), ha]

theorem token_eq (h : c.Over w c') (h' : d.Over w d') (ht : d'.token = c'.token) : d.token = c.token := by
  cases w with
  | nil =>
    obtain rfl := nil_iff.mp h
    obtain rfl := nil_iff.mp h'
    exact ht
  | cons t w => rw [h.head, h'.head]

end Over

end Turtle.Cursor
