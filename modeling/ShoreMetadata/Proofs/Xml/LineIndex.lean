import Mathlib.Data.List.Basic
import Mathlib.Data.List.Induction
import Mathlib.Data.Prod.Lex
import ShoreMetadata.Proofs.Xml.Position
import ShoreMetadata.Text.Utf8

/-! Lines and columns as the bytes before an offset tell them: the line by how many line feeds
there are, the column by what stands behind the last one. -/

namespace ShoreMetadata.Xml

open Text

def lineFeed : UInt8 := 10

private theorem data_toUTF8 (text : String) : text.toUTF8.data.toList = utf8Bytes text.toList := by
  have encoded : text.toUTF8 = text.toList.utf8Encode := String.utf8Encode_toList.symm
  rw [encoded, List.utf8Encode, List.toList_data_toByteArray, utf8Bytes]

private theorem toNat_of_mem_utf8EncodeChar (c : Char) :
    ∀ byte ∈ String.utf8EncodeChar c, byte.toNat = c.toNat ∨ 128 ≤ byte.toNat := by
  fun_cases String.utf8EncodeChar c with
  | case1 v ascii =>
      intro byte member
      have small : v < 256 := Nat.lt_of_le_of_lt ascii (by decide)
      rw [List.mem_singleton.mp member, UInt8.toNat_ofNat', Nat.mod_eq_of_lt small]
      exact .inl rfl
  | case2 v | case3 v | case4 v =>
      intro byte member
      right
      simp only [List.mem_cons, List.not_mem_nil, or_false] at member
      rcases member with rfl | rfl | rfl | rfl <;> rw [UInt8.toNat_ofNat'] <;> omega

private theorem lineFeed_notMem_utf8EncodeChar {c : Char} (other : c ≠ '\n') :
    lineFeed ∉ String.utf8EncodeChar c := by
  intro member
  rcases toNat_of_mem_utf8EncodeChar c lineFeed member with same | large
  · apply other
    apply Char.toNat_inj.mp
    exact same.symm
  · exact absurd large (by decide)

private theorem idxsOf_lineFeed_of_notMem {bytes : List UInt8} (plain : lineFeed ∉ bytes)
    (offset : Nat) : bytes.idxsOf lineFeed offset = [] := by
  apply List.idxsOf_eq_nil_iff.mpr
  intro byte member
  apply beq_false_of_ne
  rintro rfl
  exact plain member

private theorem lineStartsFrom_eq_idxsOf (offset : Nat) (cs : List Char) :
    lineStartsFrom offset cs = (utf8Bytes cs).idxsOf lineFeed (offset + 1) := by
  induction cs generalizing offset with
  | nil => rfl
  | cons c cs ih =>
      have bytes : utf8Bytes (c :: cs) = String.utf8EncodeChar c ++ utf8Bytes cs := rfl
      rw [bytes, List.idxsOf_append, String.length_utf8EncodeChar, lineStartsFrom, ih,
        Nat.add_right_comm offset 1]
      split
      next feed =>
          subst feed
          rfl
      next other =>
          rw [idxsOf_lineFeed_of_notMem (lineFeed_notMem_utf8EncodeChar other), List.nil_append]

/-- The bytes of a text before an offset, all of them if it is beyond the end. -/
def bytesBefore (text : String) (offset : Nat) : List UInt8 :=
  text.toUTF8.data.toList.take offset

/-- The offset just behind the last line feed of some bytes, zero if there is none. -/
inductive LastLine (bytes : List UInt8) : Nat → Prop
  | first (plain : lineFeed ∉ bytes) : LastLine bytes 0
  | behind {front line : List UInt8} (split : bytes = front ++ lineFeed :: line)
      (plain : lineFeed ∉ line) : LastLine bytes (front.length + 1)

private theorem exists_lastLine (bytes : List UInt8) : ∃ start, LastLine bytes start := by
  induction bytes using List.reverseRecOn with
  | nil => exact ⟨0, .first List.not_mem_nil⟩
  | append_singleton bytes byte ih =>
      by_cases feed : lineFeed = byte
      · exact ⟨_, .behind (by rw [feed]) List.not_mem_nil⟩
      · obtain ⟨start, last⟩ := ih
        cases last with
        | first plain => exact ⟨0, .first (by simp [plain, feed])⟩
        | @behind front line split plain =>
            have longer : bytes ++ [byte] = front ++ lineFeed :: (line ++ [byte]) := by
              rw [split, List.append_assoc, List.cons_append]
            exact ⟨_, .behind longer (by simp [plain, feed])⟩

namespace LastLine

variable {bytes : List UInt8} {start : Nat}

private theorem le_length (last : LastLine bytes start) : start ≤ bytes.length := by
  cases last with
  | first plain => exact Nat.zero_le _
  | behind split plain => simp [split]

private theorem getElem?_count (last : LastLine bytes start) :
    (0 :: bytes.idxsOf lineFeed 1)[bytes.count lineFeed]? = some start := by
  cases last with
  | first plain =>
      rw [List.count_eq_zero_of_not_mem plain]
      rfl
  | @behind front line split plain =>
      have feeds : bytes.idxsOf lineFeed 1 = front.idxsOf lineFeed 1 ++ [front.length + 1] := by
        rw [split, List.idxsOf_append, List.idxsOf_cons, if_pos (beq_self_eq_true lineFeed),
          idxsOf_lineFeed_of_notMem plain, Nat.add_comm]
      have counted : bytes.count lineFeed = (front.idxsOf lineFeed 1).length + 1 := by
        rw [split, List.count_append, List.count_cons_self,
          List.count_eq_zero_of_not_mem plain, List.length_idxsOf]
      rw [counted, List.getElem?_cons_succ, feeds, List.getElem?_concat_length]

end LastLine

namespace LineIndex

private theorem inLine_ofText {text : String} {offset start : Nat}
    (last : LastLine (bytesBefore text offset) start) :
    (ofText text.toList).InLine offset ((bytesBefore text offset).count lineFeed) start := by
  have starts : (ofText text.toList).starts.toList =
      (0 :: (bytesBefore text offset).idxsOf lineFeed 1) ++
        (text.toUTF8.data.toList.drop offset).idxsOf lineFeed
          (1 + (bytesBefore text offset).length) := by
    rw [List.cons_append, ← List.idxsOf_append, bytesBefore, List.take_append_drop, data_toUTF8]
    exact congrArg (0 :: ·) (lineStartsFrom_eq_idxsOf 0 text.toList)
  have bounded : (bytesBefore text offset).length ≤ offset := List.length_take_le _ _
  refine ⟨?_, last.le_length.trans bounded, fun next follows => ?_⟩
  · rw [← Array.getElem?_toList, starts, List.getElem?_append_left (by simp)]
    exact last.getElem?_count
  · rw [← Array.getElem?_toList, starts, List.getElem?_append_right (by simp)] at follows
    have member := List.mem_of_getElem? follows
    have above := List.ge_of_mem_idxsOf next member
    have below := List.lt_add_of_mem_idxsOf next member
    -- Lines that begin later are there only if the text does not end before the offset.
    simp only [bytesBefore, List.length_take, List.length_drop] at above below
    omega

namespace InLine

variable {index : LineIndex} {offset other line later start next : Nat}

private theorem line_le (inLine : index.InLine offset line start)
    (inOther : index.InLine other later next) (le : offset ≤ other) : line ≤ later := by
  apply Nat.le_of_not_lt
  intro less
  have reached := inLine.reached
  rcases Nat.lt_or_eq_of_le (Nat.succ_le_of_lt less) with before | rfl
  · obtain ⟨inside, -⟩ := Array.getElem?_eq_some_iff.mp inLine.begins
    have there := Array.getElem?_eq_getElem (before.trans inside)
    have beyond := inOther.ended _ there
    have earlier := index.start_lt_start before there inLine.begins
    omega
  · have beyond := inOther.ended start inLine.begins
    omega

private theorem start_eq (inLine : index.InLine offset line start)
    (inOther : index.InLine other line next) : start = next :=
  Option.some.inj (inLine.begins.symm.trans inOther.begins)

end InLine

private theorem locate_of_inLine {index : LineIndex} {offset line start : Nat}
    (inLine : index.InLine offset line start) :
    index.locate offset = ⟨line + 1, offset - start + 1⟩ := by
  obtain ⟨told, begin, inTold, located⟩ := index.exists_locate offset
  obtain rfl : told = line :=
    Nat.le_antisymm (inTold.line_le inLine le_rfl) (inLine.line_le inTold le_rfl)
  rw [located, inTold.start_eq inLine]

private theorem strictMono_locate (index : LineIndex) :
    StrictMono fun offset => toLex ((index.locate offset).line, (index.locate offset).column) := by
  intro offset other less
  obtain ⟨line, start, inLine, here⟩ := index.exists_locate offset
  obtain ⟨later, next, inOther, there⟩ := index.exists_locate other
  have reached := inLine.reached
  simp only [Prod.Lex.toLex_lt_toLex, here, there]
  rcases Nat.lt_or_eq_of_le (inLine.line_le inOther less.le) with before | rfl
  · exact .inl (Nat.succ_lt_succ before)
  · obtain rfl := inLine.start_eq inOther
    exact .inr ⟨rfl, by omega⟩

/-- The line of an offset counts the line feeds before it and the column the bytes from the last
of them on, both from one. Nothing goes wrong in looking for them, and they grow with the offset. -/
theorem locate_ofText (text : String) :
    let index := ofText text.toList
    (∀ offset, index.locate? offset = some (index.locate offset) ∧
      ∃ start, LastLine (bytesBefore text offset) start ∧ start ≤ offset ∧
        index.locate offset =
          ⟨1 + (bytesBefore text offset).count lineFeed, 1 + offset - start⟩) ∧
      Function.Injective index.locate ∧
      StrictMono fun offset =>
        toLex ((index.locate offset).line, (index.locate offset).column) := by
  intro index
  have ascending := index.strictMono_locate
  refine ⟨fun offset => ⟨?_, ?_⟩, fun offset other same => ?_, ascending⟩
  · exact (Option.some_get _).symm
  · obtain ⟨start, last⟩ := exists_lastLine (bytesBefore text offset)
    have inLine := inLine_ofText last
    have reached := inLine.reached
    refine ⟨start, last, reached, ?_⟩
    rw [locate_of_inLine inLine, Nat.add_comm 1, Nat.add_comm 1, Nat.sub_add_comm reached]
  · apply ascending.injective
    simp only [same]

example : [0, 1, 2, 3, 4, 5, 9].map (ofText "é\n\nb".toList).locate =
    [⟨1, 1⟩, ⟨1, 2⟩, ⟨1, 3⟩, ⟨2, 1⟩, ⟨3, 1⟩, ⟨3, 2⟩, ⟨3, 6⟩] := by decide +kernel

end LineIndex

end ShoreMetadata.Xml
