import Mathlib.Data.List.Chain
import Turtle.Proofs.Grammar.Rules

/-!
# Neighbours

No rule of the grammar has a slash with a star behind it: what is divided by is an operand, and no
operand begins with a star. So a slash and a star that would open a comment do not stand in a program.
-/

namespace Turtle.Grammar

/-- Tokens without a star behind a slash, that may stand behind a slash and before a star. -/
structure Tight (w : List Token) : Prop where
  chain : w.IsChain fun t t' => ¬(t = .symbol .slash ∧ t' = .symbol .star)
  ne_nil : w ≠ []
  head : ∀ t ∈ w.head?, t ≠ .symbol .star
  last : ∀ t ∈ w.getLast?, t ≠ .symbol .slash

namespace Tight

variable {w v : List Token} {t : Token}

theorem one (hs : t ≠ .symbol .star) (hd : t ≠ .symbol .slash) : Tight [t] := by
  refine ⟨List.isChain_singleton t, List.cons_ne_nil t [], ?_, ?_⟩
  · rintro _ ⟨⟩
    exact hs
  · rintro _ ⟨⟩
    exact hd

theorem append (hw : Tight w) (hv : Tight v) : Tight (w ++ v) := by
  refine ⟨hw.chain.append hv.chain fun t _ t' ht' h => hv.head t' ht' h.2, ?_, ?_, ?_⟩
  · exact List.append_ne_nil_of_left_ne_nil hw.ne_nil v
  · rw [List.head?_append_of_ne_nil _ hw.ne_nil]
    exact hw.head
  · rw [List.getLast?_append_of_ne_nil _ hv.ne_nil]
    exact hv.last

theorem keyword {k : Keyword} : Tight [.keyword k] := one nofun nofun

/-- The operator itself may be a slash or a star, since it stands between operands. -/
theorem joined (hw : Tight w) (hv : Tight v) (op : Token) : Tight (w ++ op :: v) := by
  have right : (op :: v).IsChain fun t t' => ¬(t = .symbol .slash ∧ t' = .symbol .star) :=
    List.isChain_cons.mpr ⟨fun t ht h => hv.head t ht h.2, hv.chain⟩
  refine ⟨hw.chain.append right fun t ht t' _ h => hw.last t ht h.1, ?_, ?_, ?_⟩
  · exact List.append_ne_nil_of_left_ne_nil hw.ne_nil _
  · rw [List.head?_append_of_ne_nil _ hw.ne_nil]
    exact hw.head
  · rw [List.getLast?_append_of_ne_nil _ (List.cons_ne_nil op v), ← List.singleton_append,
      List.getLast?_append_of_ne_nil _ hv.ne_nil]
    exact hv.last

end Tight

theorem tight_of_phrase {k : Rank} {w : List Token} {e : Expr} (h : Phrase k w e) : Tight w := by
  induction h with
  | operand _ _ ih | comparison _ _ ih => exact ih
  | joined _ _ _ _ ihl ihr | compared _ _ _ ihl ihr => exact ihl.joined ihr _
  | plus _ ih => exact (Tight.one (t := .symbol .plus) nofun nofun).append ih
  | minus _ ih => exact (Tight.one (t := .symbol .minus) nofun nofun).append ih
  | not _ ih => exact (Tight.keyword (k := .not)).append ih
  | parens _ ih | condition _ ih =>
    exact ((Tight.one (t := .symbol .lparen) nofun nofun).append ih).append (.one nofun nofun)
  | name | number => exact .one nofun nofun

mutual

theorem tight_of_statement {w : List Token} {s : Stmt} (h : Statement w s) : Tight w := by
  match h with
  | .assign (x := x) h =>
    exact (Tight.one (t := .identifier x) nofun nofun).append
      ((Tight.one (t := .symbol .assign) nofun nofun).append (tight_of_phrase h))
  | .while hc hs =>
    have test := (Tight.keyword (k := .while)).append (tight_of_phrase hc)
    exact (test.append ((Tight.keyword (k := .do)).append (tight_of_block hs))).append .keyword
  | .if h => exact (Tight.keyword (k := .if)).append (tight_of_arm h)
  | .action => exact .keyword
  | .motion (m := m) h => exact (Tight.keyword (k := m.keyword)).append (tight_of_phrase h)

theorem tight_of_arm {w : List Token} {s : Stmt} (h : Arm w s) : Tight w := by
  match h with
  | .arm hc hs ho =>
    have body := (Tight.keyword (k := .then)).append (tight_of_block hs)
    exact ((tight_of_phrase hc).append body).append (tight_of_elsePart ho)

theorem tight_of_elsePart {w : List Token} {o : Option Stmt} (h : ElsePart w o) : Tight w := by
  match h with
  | .elsif h => exact (Tight.keyword (k := .elsif)).append (tight_of_arm h)
  | .else h => exact ((Tight.keyword (k := .else)).append (tight_of_block h)).append .keyword
  | .fi => exact .keyword

theorem tight_of_block {w : List Token} {s : Stmt} (h : Block w s) : Tight w := by
  match h with
  | .block h => exact tight_of_statements h

theorem tight_of_statements {w : List Token} {ss : List Stmt} (h : Statements w ss) : Tight w := by
  match h with
  | .one h => exact tight_of_statement h
  | .more h hs => exact (tight_of_statement h).append (tight_of_statements hs)

end

theorem isChain_of_derives {w : List Token} {p : Program} (h : Derives w p) :
    w.IsChain fun t t' => ¬(t = .symbol .slash ∧ t' = .symbol .star) := by
  rcases block_of_blocks h with ⟨rfl, -⟩ | ⟨s, hs, -⟩
  · exact List.isChain_nil
  · exact (tight_of_block hs).chain

end Turtle.Grammar
