import Turtle.Proofs.Grammar.Alternatives
import Turtle.Proofs.Grammar.Travel

/-!
# What a rule answers

`Answers n L f c r`: from the cursor `c` a rule of the descent answers `r`. A tree that it finds belongs
to the tokens it took, in the sense of `L`. If it finds none then an obstacle stands behind the tokens
it took, and what the message asks for could stand in that place. Either way the answer depends on
nothing that was not read: `f`, the same rule with bounds of its own, answers alike wherever it meets
the same tokens.
-/

namespace Turtle

/-- Why a rule cannot go on from a cursor; the last of them is an answer that is no token. -/
inductive Obstacle
  | mismatch (kind : Kind)
  | unrecognized (rule : Rule)
  | unreadable

namespace Obstacle

def Stops : Obstacle → Cursor → SyntaxError → Prop
  | .mismatch kind, c, e => e = ⟨c.line, .unexpectedToken c.token kind⟩
  | .unrecognized rule, c, e => e = c.unrecognized rule
  | .unreadable, c, e => c.token ≠ .eot ∧ c.advance = .error e

/-- The tokens that the rule would have taken in the place of the lookahead `t`. -/
def Allows : Obstacle → Token → Token → Prop
  | .mismatch kind, _, t' => t'.kind = kind
  | .unrecognized rule, _, t' => rule.Starts t'
  | .unreadable, t, t' => t' = t

end Obstacle

inductive Answers {α : Type} (n : Nat) (L : List Token → α → Prop) (f : Parser α) (c : Cursor) :
    Except SyntaxError (α × Cursor) → Prop
  | ok {w : List Token} {a : α} {c' : Cursor} (hw : c.Over w c') (ha : L w a)
    (hf : ∀ d d', d.left < n → d.Over w d' → d'.token = c'.token → f d = .ok (a, d')) :
    Answers n L f c (.ok (a, c'))
  | error {w : List Token} {o : Obstacle} {c' : Cursor} {e : SyntaxError} (hw : c.Over w c')
      (he : o.Stops c' e) (hx : ∀ t, o.Allows c'.token t → ∃ v a, L (w ++ t :: v) a)
    (hf : ∀ d d' e', d.left < n → d.Over w d' → d'.token = c'.token → o.Stops d' e' → f d = .error e') :
    Answers n L f c (.error e)

namespace Answers

variable {α β : Type} {n m : Nat} {L : List Token → α → Prop} {M : List Token → β → Prop} {f : Parser α}
  {c : Cursor} {r : Except SyntaxError (α × Cursor)}

theorem imp {L' : List Token → α → Prop} (hL : ∀ w a, L w a → L' w a) (h : Answers n L f c r) :
    Answers n L' f c r := by
  cases h with
  | ok hw ha hf => exact .ok hw (hL _ _ ha) hf
  | error hw he hx hf =>
    refine .error hw he (fun t ht => ?_) hf
    obtain ⟨v, a, ha⟩ := hx t ht
    exact ⟨v, a, hL _ _ ha⟩

theorem le (hm : m ≤ n) (h : Answers n L f c r) : Answers m L f c r := by
  cases h with
  | ok hw ha hf => exact .ok hw ha fun d d' hd => hf d d' (Nat.lt_of_lt_of_le hd hm)
  | error hw he hx hf => exact .error hw he hx fun d d' e' hd => hf d d' e' (Nat.lt_of_lt_of_le hd hm)

theorem congr {f' : Parser α} (hf : ∀ d, d.left < n → d.token = c.token → f' d = f d)
    (h : Answers n L f c r) :
    Answers n L f' c r := by
  cases h with
  | ok hw ha h =>
    refine .ok hw ha ?_
    intro d d' hd hd' ht
    rw [hf d hd (hw.token_eq hd' ht)]
    exact h d d' hd hd' ht
  | error hw he hx h =>
    refine .error hw he hx ?_
    intro d d' e' hd hd' ht he'
    rw [hf d hd (hw.token_eq hd' ht)]
    exact h d d' e' hd hd' ht he'

/-- A bound of zero leaves nothing to say about `f`, so that only positive bounds count. -/
theorem succ {f : Nat → Parser α} {b : Nat} (hb : n ≤ b)
    (h : ∀ b, n ≤ b + 1 → Answers n L (f (b + 1)) c r) : Answers n L (f b) c r := by
  cases b with
  | zero => exact congr (fun d hd _ => absurd hd (by omega)) (h 0 (by omega))
  | succ b => exact h b hb

theorem pure {a : α} (h : L [] a) : Answers n L (fun d => .ok (a, d)) c (.ok (a, c)) := by
  refine .ok .refl h ?_
  intro d d' _ hd _
  rw [Cursor.Over.nil_iff.mp hd]

theorem unrecognized {rule : Rule} (h : ∀ t, rule.Starts t → ∃ v a, L (t :: v) a) :
    Answers n L (fun d => .error (d.unrecognized rule)) c (.error (c.unrecognized rule)) := by
  refine .error (o := .unrecognized rule) .refl rfl h ?_
  intro d d' e' _ hd _ he
  rw [Cursor.Over.nil_iff.mp hd, show e' = d'.unrecognized rule from he]

/-! ## One rule after the other -/

section
variable {k g : α × Cursor → Except SyntaxError (β × Cursor)}

theorem bind (h : Answers n L f c r) (hx : ∀ {w a}, L w a → ∃ v b, M (w ++ v) b)
    (hk : ∀ {w a c₁}, c.Over w c₁ → L w a →
      Answers (n - w.length) (fun v b => M (w ++ v) b) (fun d => g (a, d)) c₁ (k (a, c₁))) :
    Answers n M (fun d => f d >>= g) c (r >>= k) := by
  cases h with
  | @error w o c' e hw he hy hf =>
    refine .error hw he (fun t ht => ?_) fun d d' e' hd hd' ht he' => ?_
    · obtain ⟨v, a, ha⟩ := hy t ht
      obtain ⟨u, b, hb⟩ := hx ha
      exact ⟨v ++ u, b, by simpa using hb⟩
    · rw [hf d d' e' hd hd' ht he']; rfl
  | @ok w a c₁ hw ha hf =>
    -- what `f` takes before `g` goes on is the same, since `g` sees the same tokens
    have first : ∀ {d d' c' v}, c₁.Over v c' → d.left < n → d.Over (w ++ v) d' → d'.token = c'.token →
        ∃ d₁, d₁.Over v d' ∧ d₁.left < n - w.length ∧ f d = .ok (a, d₁) := by
      intro d d' c' v hv hd hd' ht
      obtain ⟨d₁, h₁, h₂⟩ := Cursor.Over.append_iff.mp hd'
      have := h₁.left_add
      exact ⟨d₁, h₂, by omega, hf d d₁ hd h₁ (hv.token_eq h₂ ht)⟩
    have hr := hk hw ha
    rw [show (Except.ok (a, c₁) >>= k) = k (a, c₁) from rfl]
    cases hr' : k (a, c₁) with
    | ok b =>
      rw [hr'] at hr
      cases hr with
      | ok hv hb hg =>
        refine .ok (hw.append hv) hb ?_
        intro d d' hd hd' ht
        obtain ⟨d₁, h₂, hn, h₁⟩ := first hv hd hd' ht
        rw [h₁]
        exact hg d₁ d' hn h₂ ht
    | error e =>
      rw [hr'] at hr
      cases hr with
      | error hv he hy hg =>
        refine .error (hw.append hv) he (fun t ht => ?_) fun d d' e' hd hd' ht he' => ?_
        · obtain ⟨u, b, hb⟩ := hy t ht
          exact ⟨u, b, by simpa using hb⟩
        · obtain ⟨d₁, h₂, hn, h₁⟩ := first hv hd hd' ht
          rw [h₁]
          exact hg d₁ d' e' hn h₂ ht he'

end

theorem map {k : α → β} (h : Answers n L f c r) (hM : ∀ {w a}, L w a → M w (k a)) :
    Answers n M (fun d => do let (a, d) ← f d; return (k a, d)) c (do let (a, d) ← r; return (k a, d)) := by
  refine bind h (fun {w a} ha => ⟨[], k a, ?_⟩) fun {w a c₁} _ ha => pure ?_
  · rw [List.append_nil]; exact hM ha
  · rw [List.append_nil]; exact hM ha

/-! ## One token -/

section
variable {k g : Cursor → Except SyntaxError (α × Cursor)}

theorem advance (ht : c.token ≠ .eot) (hx : ∃ v a, L (c.token :: v) a)
    (hk : ∀ c₁, c.Over [c.token] c₁ → Answers (n - 1) (fun v a => L (c.token :: v) a) g c₁ (k c₁)) :
    Answers n L (fun d => d.advance >>= g) c (c.advance >>= k) := by
  -- a token as a rule of its own, which finds nothing but that token
  have one : Answers n (fun w (_ : Unit) => w = [c.token]) (fun d => d.advance.map ((), ·)) c
      (c.advance.map ((), ·)) := by
    cases ha : c.advance with
    | error e =>
      refine .error (o := .unreadable) .refl ⟨ht, ha⟩ (fun t he => ⟨[], (), by rw [he]; rfl⟩) ?_
      intro d d' e' _ hd _ he
      rw [Cursor.Over.nil_iff.mp hd, he.2]; rfl
    | ok c₁ =>
      refine .ok (.one ht ha) rfl ?_
      intro d d' _ hd _
      obtain ⟨-, -, d₁, ha', hd₁⟩ := Cursor.Over.cons_iff.mp hd
      rw [ha', Cursor.Over.nil_iff.mp hd₁]; rfl
  have map_bind : ∀ (r : Except SyntaxError Cursor) (k : Cursor → Except SyntaxError (α × Cursor)),
      (r.map ((), ·) >>= fun p => k p.2) = (r >>= k) := by
    intro r k; cases r <;> rfl
  have both := bind (M := L) (k := fun p => k p.2) (g := fun p => g p.2) one (by rintro w - rfl; exact hx)
    (by rintro w - c₁ hw rfl; exact hk c₁ hw)
  rw [map_bind] at both
  exact congr (fun d _ _ => (map_bind ..).symm) both

theorem expect {kind : Kind} (hkind : kind ≠ .eot) (hx : ∀ t, t.kind = kind → ∃ v a, L (t :: v) a)
    (hk : ∀ c₁, c.token.kind = kind → c.Over [c.token] c₁ →
      Answers (n - 1) (fun v a => L (c.token :: v) a) g c₁ (k c₁)) :
    Answers n L (fun d => d.expect kind >>= g) c (c.expect kind >>= k) := by
  by_cases h : c.token.kind = kind
  · have ht : c.token ≠ .eot := fun he => hkind (by rw [← h, he]; rfl)
    rw [Cursor.expect, if_pos h]
    refine congr (f := fun d => d.advance >>= g) (fun d _ hd => ?_) ?_
    · rw [Cursor.expect, hd, if_pos h]
    · exact advance ht (hx _ h) fun c₁ => hk c₁ h
  · rw [Cursor.expect, if_neg h]
    refine .error (o := .mismatch kind) .refl rfl hx ?_
    intro d d' e' _ hd hd' he
    obtain rfl := Cursor.Over.nil_iff.mp hd
    rw [Cursor.expect, hd', if_neg h, show e' = _ from he, hd']; rfl

end

theorem last {a : α} (ht : c.token ≠ .eot) (h : L [c.token] a) :
    Answers n L (fun d => do return (a, ← d.advance)) c (do return (a, ← c.advance)) :=
  advance ht ⟨[], a, h⟩ fun _ _ => pure h

theorem close {a : α} {kind : Kind} (hkind : kind ≠ .eot) (h : ∀ t, t.kind = kind → L [t] a) :
    Answers n L (fun d => do return (a, ← d.expect kind)) c (do return (a, ← c.expect kind)) :=
  expect hkind (fun t ht => ⟨[], a, h t ht⟩) fun _ hc _ => pure (h _ hc)

end Answers

end Turtle
