import Turtle.Command
import Turtle.Proofs.Number.RoundTrip

/-!
# Records as bytes

A record is written in characters of one byte each, so that to count or to cut it by characters is to do
so by bytes.
-/

namespace Turtle

def bytes (s : String) : List UInt8 := s.toUTF8.data.toList

def Command.record (c : Command) : List UInt8 := bytes (c.text ++ "\n")

theorem bytes_ofList (cs : List Char) : bytes (.ofList cs) = cs.flatMap String.utf8EncodeChar := by
  unfold bytes String.toUTF8
  rw [String.toByteArray_ofList, List.utf8Encode, List.data_toByteArray]

/-! ## Characters of one byte -/

def IsPlain (cs : List Char) : Prop := ∀ c ∈ cs, c.utf8Size = 1

instance (cs : List Char) : Decidable (IsPlain cs) := List.decidableBAll _ cs

theorem IsPlain.bytes {cs : List Char} (h : IsPlain cs) :
    bytes (.ofList cs) = cs.map fun c => c.val.toUInt8 := by
  rw [bytes_ofList]
  induction cs with
  | nil => rfl
  | cons c cs ih =>
    rw [List.flatMap_cons, String.utf8EncodeChar_eq_singleton (h c List.mem_cons_self),
      ih fun d hd => h d (List.mem_cons_of_mem c hd)]
    rfl

theorem utf8Size_of_isDigit {c : Char} (h : c.isDigit = true) : c.utf8Size = 1 := by
  have hle : c.toNat ≤ 57 := (Char.isDigit_iff_toNat.mp h).2
  rw [Char.utf8Size, if_pos]
  exact UInt32.le_iff_toNat_le.mpr (Nat.le_trans hle (by decide))

/-! ## The characters of a number -/

theorem Decimal.mem_text {d : Decimal} {c : Char} (h : c ∈ d.text) : c.isDigit = true ∨ c = '.' := by
  have whole : ∀ {n}, c ∈ Nat.toDigits 10 n → c.isDigit = true :=
    fun hc => Nat.isDigit_of_mem_toDigits (by decide) (by decide) hc
  unfold text at h
  split at h
  · exact .inl (whole h)
  · rcases List.mem_append.mp h with h | h
    · exact .inl (whole h)
    · rcases List.mem_cons.mp h with h | h
      · exact .inr h
      · exact .inl (isDigit_of_mem_lastDigits h)

def Number.signs : List Char := ['-', '.', 'i', 'n', 'f', 'N', 'a']

theorem Number.mem_chars {v : Number} {c : Char} (h : c ∈ v.chars) : c.isDigit = true ∨ c ∈ signs := by
  have name {cs : List Char} (hs : cs ⊆ signs) (hc : c ∈ cs) : c.isDigit = true ∨ c ∈ signs := .inr (hs hc)
  unfold chars at h
  split at h
  · exact name (by decide) h
  · rcases List.mem_append.mp h with h | h <;> split at h
    · exact name (by decide) h
    · cases h
    · rcases Decimal.mem_text h with hd | rfl
      · exact .inl hd
      · exact .inr (by decide)
    · exact name (by decide) h

theorem Number.isPlain_chars (v : Number) : IsPlain v.chars := by
  intro c hc
  rcases mem_chars hc with hd | hs
  · exact utf8Size_of_isDigit hd
  · exact (by simp [signs, Char.utf8Size] : ∀ d ∈ signs, d.utf8Size = 1) c hs

theorem Command.isPlain_chars (c : Command) : IsPlain c.chars := by
  cases c with
  | move v | rotate v =>
    exact List.forall_mem_cons.mpr ⟨rfl, List.forall_mem_cons.mpr ⟨rfl, v.isPlain_chars⟩⟩
  | _ => exact List.forall_mem_singleton.mpr rfl

theorem Command.isPlain_line (c : Command) : IsPlain c.line :=
  List.forall_mem_append.mpr ⟨c.isPlain_chars, List.forall_mem_singleton.mpr rfl⟩

/-! ## Lines of many commands -/

def lines (cs : List Command) : List Char := cs.flatMap Command.line

def records (cs : List Command) : List UInt8 := cs.flatMap Command.record

theorem lines_append (cs ds : List Command) : lines (cs ++ ds) = lines cs ++ lines ds := List.flatMap_append

theorem records_append (cs ds : List Command) : records (cs ++ ds) = records cs ++ records ds :=
  List.flatMap_append

theorem isPlain_lines (cs : List Command) : IsPlain (lines cs) := by
  intro ch h
  obtain ⟨c, -, hc⟩ := List.mem_flatMap.mp h
  exact c.isPlain_line ch hc

theorem Command.record_eq (c : Command) : c.record = c.line.map fun ch => ch.val.toUInt8 := by
  rw [← c.isPlain_line.bytes, line, String.ofList_append]
  rfl

theorem records_eq (cs : List Command) : records cs = (lines cs).map fun ch => ch.val.toUInt8 := by
  rw [records, lines, List.map_flatMap]
  exact congrArg cs.flatMap (funext Command.record_eq)

theorem length_records (cs : List Command) : (records cs).length = (lines cs).length := by
  rw [records_eq, List.length_map]

theorem bytes_take_lines (n : Nat) (cs : List Command) :
    bytes (.ofList ((lines cs).take n)) = (records cs).take n := by
  have h : IsPlain ((lines cs).take n) := fun c hc => isPlain_lines cs c (List.mem_of_mem_take hc)
  rw [h.bytes, records_eq, List.map_take]

/-! ## Line by line -/

theorem Number.newline_not_mem_chars (v : Number) : '\n' ∉ v.chars := by
  intro hm
  rcases mem_chars hm with hd | hs
  · cases hd
  · exact absurd hs (by decide)

theorem Command.newline_not_mem_chars (c : Command) : '\n' ∉ c.chars := by
  cases c with
  | move v | rotate v =>
    exact List.not_mem_cons_of_ne_of_not_mem (by decide)
      (List.not_mem_cons_of_ne_of_not_mem (by decide) v.newline_not_mem_chars)
  | _ => decide

theorem splitOn_lines (cs : List Command) : (lines cs).splitOn '\n' = cs.map Command.chars ++ [[]] := by
  induction cs with
  | nil => rfl
  | cons c cs ih =>
    rw [lines, List.flatMap_cons, Command.line, List.append_assoc, List.singleton_append,
      List.splitOn_append_cons_self_of_not_mem c.newline_not_mem_chars, List.map_cons, List.cons_append, ← ih]
    rfl

/-- A byte of plain text is a line end only where the text has one. -/
theorem newline_not_mem_bytes {cs : List Char} (h : IsPlain cs) (hn : '\n' ∉ cs) :
    10 ∉ bytes (.ofList cs) := by
  rw [h.bytes]
  intro hm
  obtain ⟨c, hc, hb⟩ := List.mem_map.mp hm
  have small : c.val.toNat ≤ 127 := UInt32.le_iff_toNat_le.mp (Char.utf8Size_eq_one_iff.mp (h c hc))
  have value : c.val.toNat % 256 = 10 := congrArg UInt8.toNat hb
  obtain rfl : c = '\n' := Char.ext (UInt32.toNat_inj.mp (show c.val.toNat = 10 by omega))
  exact hn hc

theorem Command.record_eq_append (c : Command) : c.record = bytes c.text ++ [10] := by
  rw [record, bytes, String.toUTF8, String.toByteArray_append, ByteArray.data_append, Array.toList_append]
  rfl

end Turtle
