import Mathlib.Data.List.DropRight
import Stencil.Source.Lines

namespace Stencil

open List

namespace Position

def past (p : Position) (byte : UInt8) : Position :=
  if byte = 10 then ⟨p.line + 1, 0⟩ else ⟨p.line, p.character + 1⟩

theorem foldl_past (p : Position) (bytes : List UInt8) : bytes.foldl past p =
    ⟨p.line + bytes.count 10, if 10 ∈ bytes then (bytes.rtakeWhile (· != 10)).length
      else p.character + bytes.length⟩ := by
  induction bytes using reverseRecOn with
  | nil => simp
  | append_singleton bs b ih =>
  rw [foldl_concat, ih, rtakeWhile_concat, past]
  by_cases newline : b = 10
  · simp [newline, Nat.add_assoc]
  · by_cases seen : 10 ∈ bs <;> simp [newline, Ne.symm newline, seen, Nat.add_assoc]

theorem foldl_past_plain {p : Position} {bytes : List UInt8} (plain : 10 ∉ bytes) :
    bytes.foldl past p = ⟨p.line, p.character + bytes.length⟩ := by
  rw [foldl_past, if_neg plain, count_eq_zero.mpr plain, Nat.add_zero]

theorem foldl_past_zero (bytes : List UInt8) : bytes.foldl past ⟨0, 0⟩ =
    ⟨bytes.count 10, (bytes.rtakeWhile (· != 10)).length⟩ := by
  rw [foldl_past, Nat.zero_add, Nat.zero_add]
  split
  case isTrue => rfl
  case isFalse plain =>
    have other : ∀ b ∈ bytes, (b != 10) := fun b mem =>
      bne_iff_ne.mpr fun same => plain (same ▸ mem)
    rw [rtakeWhile_eq_self_iff.mpr other]

theorem before_foldl (p : Position) {bytes : List UInt8} (some : 0 < bytes.length) :
    p.before (bytes.foldl past p) := by
  by_cases newline : 10 ∈ bytes
  · simp [before, foldl_past, count_pos_iff.mpr newline]
  · simp [before, foldl_past_plain newline, some]

end Position

theorem byteLength_eq (cs : List Char) :
    byteLength cs = (cs.flatMap String.utf8EncodeChar).length := by
  induction cs with
  | nil => rfl
  | cons c cs ih => simp [byteLength, ih]

theorem utf8EncodeChar_plain {c : Char} (other : c ≠ '\n') : 10 ∉ String.utf8EncodeChar c := by
  have code : c.toNat ≠ 10 := fun same => other (Char.toNat_inj.mp same)
  have bytes : ∀ b ∈ String.utf8EncodeChar c, b.toNat ≠ 10 := by
    unfold String.utf8EncodeChar
    dsimp only
    split_ifs
    all_goals
      simp only [forall_mem_cons, UInt8.toNat_ofNat', not_mem_nil, false_implies, implies_true,
        and_true]
      unfold Char.toNat at code
      omega
  exact fun mem => bytes 10 mem rfl

theorem passed_eq_nil {cs : List Char} {begun offset : Nat}
    (lies : ∀ c ∈ cs.head?, offset < begun + c.utf8Size) :
    (startsAfterNewlines begun cs).takeWhile (· ≤ offset) = [] := by
  induction cs generalizing begun with
  | nil => rfl
  | cons c cs ih =>
  have lt := lies c rfl
  rw [startsAfterNewlines]
  split
  · exact takeWhile_cons_of_neg (by simpa)
  · exact ih fun _ _ => Nat.lt_add_right _ lt

theorem passed_eq_foldl {cs : List Char} {begun start line offset : Nat} (le : start ≤ begun)
    (way : begun ≤ offset) (within : offset ≤ begun + byteLength cs) :
    let passed := (startsAfterNewlines begun cs).takeWhile (· ≤ offset)
    (⟨line + passed.length, offset - passed.getLastD start⟩ : Position) =
      ((cs.flatMap String.utf8EncodeChar).take (offset - begun)).foldl Position.past
        ⟨line, begun - start⟩ := by
  induction cs generalizing begun start line with
  | nil =>
    cases Nat.le_antisymm way within
    simp [startsAfterNewlines]
  | cons c cs ih =>
  rw [byteLength, ← Nat.add_assoc] at within
  rw [flatMap_cons, take_append, foldl_append, String.length_utf8EncodeChar, Nat.sub_sub]
  dsimp only
  by_cases lies : offset < begun + c.utf8Size
  · have plain : 10 ∉ (String.utf8EncodeChar c).take (offset - begun) := by
      by_cases newline : c = '\n'
      · subst newline
        rw [Nat.sub_eq_zero_of_le (Nat.le_of_lt_succ lies)]
        simp
      · exact fun mem => utf8EncodeChar_plain newline (mem_of_mem_take mem)
    rw [Nat.sub_eq_zero_of_le lies.le, take_zero, foldl_nil, Position.foldl_past_plain plain,
      passed_eq_nil (by simpa)]
    simp
    omega
  have behind := Nat.le_of_not_lt lies
  rw [take_of_length_le (by rw [String.length_utf8EncodeChar]; omega)]
  rw [startsAfterNewlines]
  split
  case isTrue newline =>
    rw [takeWhile_cons_of_pos (by simpa), getLastD_cons, length_cons, Nat.add_comm _ 1,
      ← Nat.add_assoc, ih .refl behind within]
    subst newline
    simp [Position.past, String.utf8EncodeChar]
  case isFalse other =>
    rw [ih (by omega) behind within, Position.foldl_past_plain (utf8EncodeChar_plain other),
      String.length_utf8EncodeChar]
    congr
    simp
    omega

namespace LineIndex

theorem position_eq (source : String) (offset : Nat) : (ofSource source).position offset =
      (source.toUTF8.data.toList.take offset).foldl Position.past ⟨0, 0⟩ := by
  have bytes : source.toUTF8.data.toList = source.toList.flatMap String.utf8EncodeChar := by
    show source.toByteArray.data.toList = _
    rw [← String.utf8Encode_toList]
    simp [List.utf8Encode]
  have within := Nat.min_le_right offset (byteLength source.toList)
  have got := @passed_eq_foldl source.toList 0 0 0 _ .refl (Nat.zero_le _)
    (within.trans (Nat.le_add_left ..))
  simp only [Nat.zero_add, Nat.sub_zero] at got
  rw [bytes, take_eq_take_min, ← byteLength_eq, ← got]
  rfl

end LineIndex

/-- The line of an offset counts the newlines before it, and the column the bytes since the last
of them. Later offsets have later positions. -/
theorem LineIndex.position_exact (source : String) :
    (∀ offset, let read := source.toUTF8.data.toList.take (min offset source.utf8ByteSize)
      (ofSource source).position offset =
        ⟨read.count 10, (read.rtakeWhile (· != 10)).length⟩) ∧
    (∀ a b, a < b → b ≤ source.utf8ByteSize →
      ((ofSource source).position a).before ((ofSource source).position b) = true) ∧
    ∀ span : Span, span.start < span.stop → span.stop ≤ source.utf8ByteSize →
      ((ofSource source).range span).start.before ((ofSource source).range span).stop = true := by
  have size : source.toUTF8.data.toList.length = source.utf8ByteSize := rfl
  have increasing : ∀ a b, a < b → b ≤ source.utf8ByteSize →
      ((ofSource source).position a).before ((ofSource source).position b) := by
    intro a b lt le
    obtain ⟨n, rfl⟩ := Nat.exists_eq_add_of_lt lt
    rw [position_eq, position_eq, Nat.add_assoc, take_add, foldl_append]
    refine Position.before_foldl _ ?_
    rw [length_take, length_drop, size]
    omega
  refine ⟨fun offset => ?_, increasing, fun _ => increasing _ _⟩
  rw [position_eq, Position.foldl_past_zero, ← size, ← take_eq_take_min]

theorem LineIndex.position_exact_lines :
    (ofSource "é\n\nb").position 4 = ⟨2, 0⟩ ∧
    ((ofSource "é\n\nb").position 2).before ((ofSource "é\n\nb").position 3) = true ∧
    ((ofSource "é\n\nb").range ⟨3, 5⟩).start.before ((ofSource "é\n\nb").range ⟨3, 5⟩).stop = true :=
  ⟨(position_exact _).1 4, (position_exact _).2.1 2 3 (by decide) (by decide),
    (position_exact _).2.2 ⟨3, 5⟩ (by decide) (by decide)⟩

end Stencil
