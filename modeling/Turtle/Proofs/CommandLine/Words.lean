import Mathlib.Data.List.Basic
import Mathlib.Data.List.Induction
import Turtle.CommandLine
import Turtle.Proofs.Sink.Records

/-!
# Words for an invocation

What words of options, with the program behind them, are read as (`ofWords_options`), word by word:
after each option the flags and definitions are those before it and one more. Every list of definitions
has such words (`exists_words`), as a number is read back from its text.
-/

namespace Turtle.CommandLine

theorem trim_append {front cs back : List Char} (hf : ∀ c ∈ front, isWhite c = true)
    (hb : ∀ c ∈ back, isWhite c = true) (hcs : ∀ c ∈ cs, isWhite c = false) (hne : cs ≠ []) :
    trim (front ++ (cs ++ back)) = cs := by
  have first : ∀ c ∈ (cs ++ back).head?, isWhite c = false := by
    intro c hc
    rw [List.head?_append_of_ne_nil _ hne] at hc
    exact hcs c (List.mem_of_mem_head? hc)
  have last : ∀ c ∈ cs.reverse.head?, isWhite c = false :=
    fun c hc => hcs c (List.mem_reverse.mp (List.mem_of_mem_head? hc))
  rw [trim, dropWhile_append_stop hf first, List.reverse_append,
    dropWhile_append_stop (fun c hc => hb c (List.mem_reverse.mp hc)) last, List.reverse_reverse]

theorem trim_of_not_white {cs : List Char} (h : ∀ c ∈ cs, isWhite c = false) : trim cs = cs := by
  by_cases hne : cs = []
  · rw [hne]
    rfl
  · have trimmed := trim_append (List.forall_mem_nil _) (List.forall_mem_nil _) h hne
    rwa [List.append_nil] at trimmed

theorem isWhite_of_isDigit {c : Char} (h : c.isDigit = true) : isWhite c = false := by
  have digit : 48 ≤ c.toNat ∧ c.toNat ≤ 57 := Char.isDigit_iff_toNat.mp h
  simp only [isWhite, Bool.or_eq_false_iff, Bool.and_eq_false_iff, decide_eq_false_iff_not]
  omega

theorem isWhite_of_mem_chars {v : Number} {c : Char} (h : c ∈ v.chars) : isWhite c = false := by
  rcases Number.mem_chars h with hd | hs
  · exact isWhite_of_isDigit hd
  · exact (by simp [Number.signs, isWhite] : ∀ c ∈ Number.signs, isWhite c = false) c hs

/-- Before `--` such a word is taken for an option. -/
def IsOption (s : String) : Prop := ∃ c cs, s.toList = '-' :: c :: cs

def Flag.WrittenAs (f : Flag) (w : String) : Prop :=
  w = "--" ++ f.long ∨ ∃ c, f.short? = some c ∧ w = .ofList ['-', c]

namespace Definition

def IsProper (d : Definition) : Prop := '=' ∉ d.name.toList ∧ trim d.name.toList = d.name.toList

def WrittenAs (d : Definition) (s : String) : Prop :=
  d.IsProper ∧ ∃ value, s.toList = d.name.toList ++ '=' :: value ∧ Number.ofChars (trim value) = .ok d.value

/-- The words that define a variable: the text in a word of its own if it looks like no option, or in
the word of the option. -/
inductive GivenBy (d : Definition) : List String → Prop
  | apart {w s : String} (hw : w ∈ ["-D", "--define"]) (h : d.WrittenAs s) (ho : ¬IsOption s) :
      GivenBy d [w, s]
  | joined {w s : String} (hw : w ∈ ["-D=", "--define="]) (h : d.WrittenAs s) : GivenBy d [w ++ s]
  | short {s : String} (h : d.WrittenAs s) (hs : s.toList.head? ≠ some '=') : GivenBy d ["-D" ++ s]

theorem WrittenAs.ne_nil {d : Definition} {s : String} (h : d.WrittenAs s) : s.toList ≠ [] := by
  obtain ⟨-, value, text, -⟩ := h
  rw [text]
  exact List.append_ne_nil_of_right_ne_nil _ (List.cons_ne_nil _ _)

theorem ofText_of_writtenAs {d : Definition} {s : String} (h : d.WrittenAs s) : ofText s = .ok d := by
  obtain ⟨⟨name, trimmed⟩, value, text, read⟩ := h
  have whole : ∀ c ∈ d.name.toList, decide (c ≠ '=') = true :=
    fun c hc => decide_eq_true fun he => name (he ▸ hc)
  have stop : ∀ c ∈ ('=' :: value).head?, decide (c ≠ '=') = false := by
    rintro c hc
    obtain rfl := Option.some.inj hc
    rfl
  rw [ofText, text, takeWhile_append_stop whole stop, dropWhile_append_stop whole stop]
  dsimp only
  rw [read, trimmed, String.ofList_toList]

theorem exists_givenBy {d : Definition} (h : d.IsProper) : ∃ ws, d.GivenBy ws := by
  have text : (d.name ++ "=" ++ d.value.text).toList = d.name.toList ++ '=' :: d.value.chars := by
    rw [String.toList_append, String.toList_append, Number.text, List.append_assoc]
    exact congrArg (_ ++ '=' :: ·) String.toList_ofList
  have value : Number.ofChars (trim d.value.chars) = .ok d.value := by
    rw [trim_of_not_white fun c hc => isWhite_of_mem_chars hc, Number.ofChars_chars]
  exact ⟨["-D=" ++ (d.name ++ "=" ++ d.value.text)], .joined (by decide) ⟨h, _, text, value⟩⟩

end Definition

namespace Taken

variable {t t' : Taken} {s : String} {ss : List String}

theorem words_word (h : t.word s = .ok t') : t.words (s :: ss) = t'.words ss := by
  have dashes : s ≠ "--" := by
    rintro rfl
    cases h
  rw [words, if_neg dashes, h]
  rfl

theorem word_of_not_isOption (ho : ¬IsOption s) :
    t.word s = if t.pending = .value then .ok { t with pending := .text s } else t.positional s := by
  unfold word
  split
  · rename_i h
    exact absurd ⟨_, _, h⟩ ho
  · rename_i h
    exact absurd ⟨_, _, h⟩ ho
  · rfl

theorem word_define {w : String} (hw : w ∈ ["-D", "--define"]) : t.word w = t.definition none := by
  simp only [List.mem_cons, List.not_mem_nil, or_false] at hw
  rcases hw with rfl | rfl <;> rfl

theorem word_define_text {w : String} (hw : w ∈ ["-D=", "--define="]) :
    t.word (w ++ s) = t.definition (some s) := by
  simp only [List.mem_cons, List.not_mem_nil, or_false] at hw
  rcases hw with rfl | rfl
  · rw [word, String.toList_append]
    show t.definition (some (.ofList s.toList)) = _
    rw [String.ofList_toList]
  · rw [word, String.toList_append]
    show t.long (['d', 'e', 'f', 'i', 'n', 'e', '='] ++ s.toList) = _
    simp [long]

theorem word_define_short (hs : s.toList ≠ []) (hn : s.toList.head? ≠ some '=') :
    t.word ("-D" ++ s) = t.definition (some s) := by
  rw [word, String.toList_append]
  show t.short ('D' :: s.toList) = _
  cases h : s.toList with
  | nil => exact absurd h hs
  | cons c cs =>
    rw [h] at hn
    rw [short, ← h, String.ofList_toList]
    · nofun
    · rintro cs' he
      exact hn (by rw [(List.cons.inj he).1]; rfl)

theorem word_flag {f : Flag} {w : String} (h : f.WrittenAs w) : t.word w = t.flag f := by
  rcases h with rfl | ⟨c, hc, rfl⟩
  · cases f <;> rfl
  · have behind : (do short (← t.flag f) []) = t.flag f := by cases t.flag f <;> rfl
    refine Eq.trans ?_ behind
    cases f <;> cases hc <;> rfl

/-! ## A text in each of its places -/

/-- The options so far, nothing of which is left open, with no other word. -/
def Ready (t : Taken) (flags : List Flag) (ds : List Definition) : Prop :=
  t.settle = .ok ⟨flags, ds, .nothing, none⟩

variable {flags : List Flag} {ds : List Definition}

theorem Ready.pending_ne_value (h : t.Ready flags ds) : t.pending ≠ .value := by
  intro hp
  rw [Ready, settle, hp] at h
  cases h

theorem Ready.program_eq_none (h : t.Ready flags ds) : t.program = none := by
  rw [Ready, settle] at h
  cases hp : t.pending with
  | nothing =>
    rw [hp] at h
    rw [Except.ok.inj h]
  | value =>
    rw [hp] at h
    cases h
  | text s =>
    rw [hp] at h
    dsimp only at h
    rw [define] at h
    split at h
    · exact congrArg program (Except.ok.inj h)
    · cases h

theorem Ready.positional (h : t.Ready flags ds) (s : String) :
    t.positional s = .ok ⟨flags, ds, .nothing, some s⟩ := by
  rw [Taken.positional, h.program_eq_none]
  dsimp only
  rw [h]
  rfl

theorem Ready.flag {f : Flag} (h : t.Ready flags ds) (hv : f.request? = none)
    (hf : f ∈ flags → f = .verbose) :
    t.flag f = .ok ⟨f :: flags, ds, .nothing, none⟩ := by
  have fresh : ¬(f ∈ flags ∧ f ≠ .verbose) := fun h => h.2 (hf h.1)
  rw [Taken.flag, h, hv]
  exact if_neg fresh

theorem Ready.flag_request {f : Flag} {r : Request} (h : t.Ready flags ds) (hr : f.request? = some r) :
    t.flag f = .error (.answer r) := by
  rw [Taken.flag, h, hr]
  rfl

theorem Ready.definition_some (h : t.Ready flags ds) {d : Definition} (hd : d.WrittenAs s) :
    t.definition (some s) = .ok ⟨flags, ds ++ [d], .nothing, none⟩ := by
  rw [definition, h]
  show define _ s = _
  rw [define, Definition.ofText_of_writtenAs hd]

theorem Ready.definition_none (h : t.Ready flags ds) : t.definition none = .ok ⟨flags, ds, .value, none⟩ := by
  rw [definition, h]
  rfl

theorem Ready.words_givenBy {d : Definition} {ws : List String} (h : t.Ready flags ds) (hd : d.GivenBy ws) :
    ∃ t' : Taken, (∀ rest, t.words (ws ++ rest) = t'.words rest) ∧ t'.Ready flags (ds ++ [d]) := by
  cases hd with
  | apart hw hs ho =>
    refine ⟨_, fun rest => (words_word ((word_define hw).trans h.definition_none)).trans
      (words_word ((word_of_not_isOption ho).trans (if_pos rfl))), ?_⟩
    show define _ _ = _
    rw [define, Definition.ofText_of_writtenAs hs]
  | joined hw hs =>
    exact ⟨_, fun rest => words_word ((word_define_text hw).trans (h.definition_some hs)), rfl⟩
  | short hs hn =>
    exact ⟨_, fun rest => words_word ((word_define_short hs.ne_nil hn).trans (h.definition_some hs)), rfl⟩

end Taken

/-- The words of options, with the flags, the last one first, and the definitions that they give. -/
inductive Options : List Flag → List Definition → List String → Prop
  | none : Options [] [] []
  | define {fs : List Flag} {ds : List Definition} {d : Definition} {ws w : List String}
      (h : Options fs ds ws) (hd : d.GivenBy w) : Options fs (ds ++ [d]) (ws ++ w)
  | flag {fs : List Flag} {ds : List Definition} {f : Flag} {ws : List String} {w : String}
      (h : Options fs ds ws) (hw : f.WrittenAs w) (hv : f.request? = none) (hf : f ∈ fs → f = .verbose) :
      Options (f :: fs) ds (ws ++ [w])

/-- The last words: the program or the name of its file, behind `--` if it looks like an option. -/
inductive Last (program : String) : List String → Prop
  | bare (h : ¬IsOption program) : Last program [program]
  | behind : Last program ["--", program]

theorem exists_ready {fs : List Flag} {ds : List Definition} {ws : List String} (h : Options fs ds ws) :
    ∃ t : Taken, (∀ rest, Taken.start.words (ws ++ rest) = t.words rest) ∧ t.Ready fs ds := by
  induction h with
  | none => exact ⟨.start, fun rest => rfl, rfl⟩
  | define _ hd ih =>
    obtain ⟨t, before, ready⟩ := ih
    obtain ⟨t', step, ready'⟩ := ready.words_givenBy hd
    exact ⟨t', fun rest => by rw [List.append_assoc, before, step], ready'⟩
  | @flag fs ds f _ _ _ hw hv hf ih =>
    obtain ⟨t, before, ready⟩ := ih
    have step := (Taken.word_flag hw).trans (ready.flag hv hf)
    exact ⟨⟨f :: fs, ds, .nothing, none⟩,
      fun rest => by rw [List.append_assoc, before, List.singleton_append, Taken.words_word step], rfl⟩

theorem words_last {t : Taken} {fs : List Flag} {ds : List Definition} {program : String} {ws : List String}
    (h : t.Ready fs ds) (hw : Last program ws) : t.words ws = .ok ⟨fs, ds, .nothing, some program⟩ := by
  cases hw with
  | bare ho =>
    have step := (Taken.word_of_not_isOption ho).trans
      ((if_neg h.pending_ne_value).trans (h.positional program))
    exact (Taken.words_word step).trans rfl
  | behind =>
    rw [Taken.words, if_pos rfl, List.foldlM_cons, h.positional]
    rfl

theorem ofWords_options {fs : List Flag} {ds : List Definition} {program : String} {ws last : List String}
    (h : Options fs ds ws) (hl : Last program last) : Request.ofWords (ws ++ last) =
      .ok (.run ⟨.file ∈ fs, .lenient ∈ fs, .ast ∈ fs, fs.count .verbose, ds, program⟩) := by
  obtain ⟨t, before, ready⟩ := exists_ready h
  rw [Request.ofWords, before, words_last ready hl]

/-- A flag that asks for something other than a run is answered, whatever stands behind it. -/
theorem ofWords_request {fs : List Flag} {ds : List Definition} {f : Flag} {r : Request}
    {ws : List String} {w : String} (h : Options fs ds ws) (hw : f.WrittenAs w) (hr : f.request? = some r)
    (rest : List String) :
    Request.ofWords (ws ++ w :: rest) = .ok r := by
  obtain ⟨t, before, ready⟩ := exists_ready h
  have step := (Taken.word_flag hw).trans (ready.flag_request hr)
  have dashes : w ≠ "--" := by
    rintro rfl
    cases step
  rw [Request.ofWords, before, Taken.words, if_neg dashes, step]
  rfl

theorem exists_options {ds : List Definition} (h : ∀ d ∈ ds, d.IsProper) : ∃ ws, Options [] ds ws := by
  induction ds using List.reverseRecOn with
  | nil => exact ⟨_, .none⟩
  | append_singleton ds d ih =>
    obtain ⟨before, last⟩ := List.forall_mem_append.mp h
    obtain ⟨ws, options⟩ := ih before
    obtain ⟨w, given⟩ := Definition.exists_givenBy (last d List.mem_cons_self)
    exact ⟨_, options.define given⟩

theorem exists_words (file lenient : Bool) (program : String) {ds : List Definition}
    (h : ∀ d ∈ ds, d.IsProper) :
    ∃ words, Request.ofWords words = .ok (.run ⟨file, lenient, false, 0, ds, program⟩) := by
  obtain ⟨ws, options⟩ := exists_options h
  have named : ∀ {fs ws} (f : Flag), Options fs ds ws → f.request? = none → f ∉ fs →
      ∃ ws', Options (f :: fs) ds ws' :=
    fun f h hv hf => ⟨_, h.flag (.inl rfl) hv fun hm => absurd hm hf⟩
  obtain ⟨ws₁, options₁⟩ : ∃ ws₁, Options (if lenient then [.lenient] else []) ds ws₁ := by
    cases lenient with
    | false => exact ⟨ws, options⟩
    | true => exact named .lenient options rfl nofun
  obtain ⟨ws₂, options₂⟩ :
      ∃ ws₂, Options ((if file then [.file] else []) ++ if lenient then [.lenient] else []) ds ws₂ := by
    cases file with
    | false => exact ⟨ws₁, options₁⟩
    | true => exact named .file options₁ rfl (by cases lenient <;> decide)
  refine ⟨ws₂ ++ ["--", program], (ofWords_options options₂ .behind).trans ?_⟩
  cases file <;> cases lenient <;> rfl

end Turtle.CommandLine
