import Mathlib.Data.List.Basic
import ShoreMetadata.Proofs.Base64

/-! A byte list has one text. What is read as bytes is the text of these bytes, apart from white
space, and white space may stand anywhere in it. -/

namespace ShoreMetadata

open Text

namespace Base64

private theorem exists_of_map_eq_ok {result : Except Fault α} {f : α → β} {b : β}
    (mapped : result.map f = .ok b) : ∃ a, result = .ok a ∧ f a = b := by
  cases result with
  | error fault => cases mapped
  | ok a =>
      cases mapped
      exact ⟨a, rfl, rfl⟩

private theorem exists_of_bind_eq_ok {result : Except Fault α} {next : α → Except Fault β} {b : β}
    (bound : result >>= next = .ok b) : ∃ a, result = .ok a ∧ next a = .ok b := by
  cases result with
  | error fault => cases bound
  | ok a => exact ⟨a, rfl, bound⟩

private theorem mapError_eq_ok_iff {result : Except Fault α} {f : Fault → ε} {a : α} :
    result.mapError f = .ok a ↔ result = .ok a := by
  cases result with
  | error fault => exact iff_of_false nofun nofun
  | ok other =>
      constructor
      · rintro ⟨⟩
        rfl
      · rintro ⟨⟩
        rfl

private theorem symbol_of_value? {b : UInt8} {v : Nat} (worth : value? b = some v) :
    v < 64 ∧ symbol v = b := by
  have all : ∀ n < 256, ∀ v ∈ value? (UInt8.ofNat n), v < 64 ∧ symbol v = UInt8.ofNat n := by
    decide +kernel
  have this := all b.toNat b.toNat_lt v
  rw [UInt8.ofNat_toNat] at this
  exact this worth

private theorem values_eq_ok {offset : Nat} {bs : List UInt8} {vs : List Nat}
    (read : values offset bs = .ok vs) : (∀ v ∈ vs, v < 64) ∧ bs = vs.map symbol := by
  induction bs generalizing offset vs with
  | nil =>
      cases read
      exact ⟨List.forall_mem_nil _, rfl⟩
  | cons b rest ih =>
      rw [values] at read
      split at read
      · cases read
      · rename_i v worth
        obtain ⟨others, more, rfl⟩ := exists_of_map_eq_ok read
        obtain ⟨small, rfl⟩ := ih more
        obtain ⟨smallV, rfl⟩ := symbol_of_value? worth
        exact ⟨List.forall_mem_cons.mpr ⟨smallV, small⟩, rfl⟩

private theorem eq_replicate_of_any_ne_pad {rest : List UInt8} (pads : ¬rest.any (· ≠ pad) = true) :
    rest = List.replicate rest.length pad := by
  apply List.eq_replicate_of_mem
  intro b member
  apply Decidable.byContradiction
  intro other
  exact pads (List.any_eq_true.mpr ⟨b, member, decide_eq_true other⟩)

private theorem lastSymbols_eq_ok {offset place : Nat} {group symbols : List UInt8}
    (read : lastSymbols offset place group = .ok symbols) :
    ∃ (vs : List Nat) (pads : Nat), (∀ v ∈ vs, v < 64) ∧ symbols = vs.map symbol ∧
      group = vs.map symbol ++ List.replicate pads pad := by
  induction group generalizing place symbols with
  | nil =>
      cases read
      exact ⟨[], 0, List.forall_mem_nil _, rfl, rfl⟩
  | cons b rest ih =>
      rw [lastSymbols] at read
      by_cases padded : b = pad
      · rw [if_pos padded] at read
        split at read
        · cases read
        · rename_i fine
          cases read
          refine ⟨[], rest.length + 1, List.forall_mem_nil _, rfl, ?_⟩
          rw [List.replicate_succ, ← eq_replicate_of_any_ne_pad fun other => fine (.inr other),
            padded]
          rfl
      · rw [if_neg padded] at read
        split at read
        · cases read
        · rename_i v worth
          obtain ⟨others, more, rfl⟩ := exists_of_map_eq_ok read
          obtain ⟨vs, pads, small, rfl, split⟩ := ih more
          obtain ⟨smallV, rfl⟩ := symbol_of_value? worth
          refine ⟨v :: vs, pads, List.forall_mem_cons.mpr ⟨smallV, small⟩, rfl, ?_⟩
          rw [split]
          rfl

private theorem decodeLast_eq_ok {offset : Nat} {group bytes : List UInt8}
    (read : decodeLast offset group = .ok bytes) :
    ∃ (vs : List Nat) (pads : Nat), (∀ v ∈ vs, v < 64) ∧ 2 ≤ vs.length ∧ vs.length + pads = 4 ∧
      groupBytes vs = (bytes, true) ∧ group = vs.map symbol ++ List.replicate pads pad := by
  obtain ⟨symbols, told, read⟩ := exists_of_bind_eq_ok read
  obtain ⟨vs, pads, small, rfl, shape⟩ := lastSymbols_eq_ok told
  rw [List.length_map, filterMap_symbols small] at read
  split at read
  · cases read
  · rename_i atLeast
    split at read
    · cases read
    · rename_i four
      generalize group' : groupBytes vs = content at read
      obtain ⟨content, exact⟩ := content
      cases exact with
      | false => cases read
      | true =>
          cases read
          refine ⟨vs, pads, small, by omega, ?_, group', shape⟩
          rw [shape] at four
          simpa using four

private theorem encodeBytes_full {vs : List Nat} (small : ∀ v ∈ vs, v < 64) (four : vs.length = 4)
    (rest : List UInt8) :
    encodeBytes ((groupBytes vs).1 ++ rest) = vs.map symbol ++ encodeBytes rest := by
  obtain ⟨a, vs, rfl⟩ := List.exists_cons_of_length_eq_add_one four
  obtain ⟨b, c, d, rfl⟩ := List.length_eq_three.mp (Nat.succ.inj four)
  simp only [List.forall_mem_cons] at small
  obtain ⟨smallA, smallB, smallC, smallD, -⟩ := small
  let n := ((a * 64 + b) * 64 + c) * 64 + d
  have number : ((a * 4 + b / 16) % 2 ^ 8 * 256 + (b % 16 * 16 + c / 4) % 2 ^ 8) * 256 +
      (c % 4 * 64 + d) % 2 ^ 8 = n := by
    omega
  have first : n / 262144 = a := by omega
  have second : n / 4096 % 64 = b := by omega
  have third : n / 64 % 64 = c := by omega
  have fourth : n % 64 = d := by omega
  simp only [groupBytes, List.cons_append, List.nil_append, encodeBytes, UInt8.toNat_ofNat',
    number, first, second, third, fourth, List.map_cons, List.map_nil]

private theorem encodeBytes_three {vs : List Nat} (small : ∀ v ∈ vs, v < 64) (three : vs.length = 3)
    (exact : (groupBytes vs).2 = true) :
    encodeBytes (groupBytes vs).1 = vs.map symbol ++ [pad] := by
  obtain ⟨a, b, c, rfl⟩ := List.length_eq_three.mp three
  simp only [List.forall_mem_cons] at small
  obtain ⟨smallA, smallB, smallC, -⟩ := small
  have spare : c % 4 = 0 := by simpa [groupBytes] using exact
  let n := ((a * 64 + b) * 64 + c) / 4
  have number : (a * 4 + b / 16) % 2 ^ 8 * 256 + (b % 16 * 16 + c / 4) % 2 ^ 8 = n := by
    omega
  have first : n / 1024 = a := by omega
  have second : n / 16 % 64 = b := by omega
  have third : n % 16 * 4 = c := by omega
  simp only [groupBytes, encodeBytes, UInt8.toNat_ofNat', number, first, second, third,
    List.map_cons, List.map_nil, List.cons_append, List.nil_append]

private theorem encodeBytes_two {vs : List Nat} (small : ∀ v ∈ vs, v < 64) (two : vs.length = 2)
    (exact : (groupBytes vs).2 = true) :
    encodeBytes (groupBytes vs).1 = vs.map symbol ++ [pad, pad] := by
  obtain ⟨a, b, rfl⟩ := List.length_eq_two.mp two
  simp only [List.forall_mem_cons] at small
  obtain ⟨smallA, smallB, -⟩ := small
  have spare : b % 16 = 0 := by simpa [groupBytes] using exact
  have number : (a * 4 + b / 16) % 2 ^ 8 = a * 4 + b / 16 := by omega
  have first : (a * 4 + b / 16) / 4 = a := by omega
  have second : (a * 4 + b / 16) % 4 * 16 = b := by omega
  simp only [groupBytes, encodeBytes, UInt8.toNat_ofNat', number, first, second,
    List.map_cons, List.map_nil, List.cons_append, List.nil_append]

private theorem encodeBytes_of_decodeLast {offset : Nat} {group bytes : List UInt8}
    (read : decodeLast offset group = .ok bytes) : encodeBytes bytes = group := by
  obtain ⟨vs, pads, small, atLeast, four, told, rfl⟩ := decodeLast_eq_ok read
  have content : (groupBytes vs).1 = bytes := by rw [told]
  have exact : (groupBytes vs).2 = true := by rw [told]
  subst content
  obtain rfl | rfl | rfl : pads = 0 ∨ pads = 1 ∨ pads = 2 := by omega
  · simpa [encodeBytes] using encodeBytes_full small four []
  · exact encodeBytes_three small (by omega) exact
  · exact encodeBytes_two small (by omega) exact

private theorem encodeBytes_of_decodeGroups {offset : Nat} {input bytes : List UInt8}
    (read : decodeGroups offset input = .ok bytes) : encodeBytes bytes = input := by
  induction offset, input using decodeGroups.induct generalizing bytes with
  | case1 offset a b c d e rest ih =>
      rw [decodeGroups] at read
      obtain ⟨vs, group, read⟩ := exists_of_bind_eq_ok read
      obtain ⟨others, more, read⟩ := exists_of_bind_eq_ok read
      cases read
      obtain ⟨small, shape⟩ := values_eq_ok group
      have four : vs.length = 4 := by
        rw [← List.length_map (f := symbol), ← shape]
        rfl
      rw [encodeBytes_full small four, ih more, ← shape]
      rfl
  | case2 offset =>
      cases read
      rfl
  | case3 offset group few some =>
      rw [decodeGroups] at read
      · exact encodeBytes_of_decodeLast read
      · exact few
      · exact some

private theorem decode_eq_ok_iff {input bytes : List UInt8} :
    decode input = .ok bytes ↔ input = encodeBytes bytes := by
  constructor
  · intro read
    unfold decode at read
    split at read
    · split at read
      · cases read
      · exact (encodeBytes_of_decodeGroups read).symm
    · rename_i none
      rw [List.getLast?_eq_none_iff] at none
      cases read
      exact none
  · rintro rfl
    exact decode_encodeBytes bytes

end Base64

/-- A text with white space put in anywhere. -/
inductive Spaced : List Char → List Char → Prop
  | nil : Spaced [] []
  | kept {c : Char} {text spaced : List Char} (rest : Spaced text spaced) :
      Spaced (c :: text) (c :: spaced)
  | blank {c : Char} {text spaced : List Char} (white : isBlank c = true)
      (rest : Spaced text spaced) : Spaced text (c :: spaced)

theorem Spaced.filter_eq {text spaced : List Char} (spread : Spaced text spaced) :
    spaced.filter (!isBlank ·) = text.filter (!isBlank ·) := by
  induction spread with
  | nil => rfl
  | @kept c _ _ _ ih =>
      rw [List.filter_cons, List.filter_cons, ih]
  | blank white _ ih => simpa [white] using ih

private theorem spaced_filter (cs : List Char) : Spaced (cs.filter (!isBlank ·)) cs := by
  induction cs with
  | nil => exact .nil
  | cons c rest ih =>
      cases white : isBlank c with
      | true => simpa [white] using Spaced.blank white ih
      | false => simpa [white] using Spaced.kept ih

private theorem Text.utf8Bytes_injective {cs ds : List Char} (same : utf8Bytes cs = utf8Bytes ds) :
    cs = ds := by
  have encoded : (String.ofList cs).toByteArray = (String.ofList ds).toByteArray := by
    rw [String.toByteArray_ofList, String.toByteArray_ofList]
    exact congrArg List.toByteArray same
  exact String.ofList_injective (String.toByteArray_inj.mp encoded)

namespace Base64

private theorem filter_encode (bytes : List UInt8) :
    (encode bytes).toList.filter (!isBlank ·) = (encode bytes).toList := by
  rw [encode, String.toList_ofList, List.filter_eq_self]
  intro c member
  obtain ⟨b, among, rfl⟩ := List.mem_map.mp member
  simp [(isPlain_of_mem_encodeBytes b among).2]

private theorem utf8Bytes_encode (bytes : List UInt8) :
    utf8Bytes (encode bytes).toList = encodeBytes bytes := by
  rw [← filter_encode, encode, String.toList_ofList,
    utf8Bytes_filter_plain isPlain_of_mem_encodeBytes]

private theorem bytesOfText_eq_ok_iff {text : String} {bytes : List UInt8} :
    bytesOfText text = .ok bytes ↔ text.toList.filter (!isBlank ·) = (encode bytes).toList := by
  rw [bytesOfText, decode_eq_ok_iff, ← utf8Bytes_encode]
  exact ⟨utf8Bytes_injective, congrArg utf8Bytes⟩

private theorem spaced_encode_iff {cs : List Char} {bytes : List UInt8} :
    Spaced (encode bytes).toList cs ↔ cs.filter (!isBlank ·) = (encode bytes).toList := by
  constructor
  · intro spread
    rw [spread.filter_eq, filter_encode]
  · intro same
    rw [← same]
    exact spaced_filter cs

end Base64

/-- A text is read as bytes exactly if it is the text of these bytes with white space put in
anywhere, that is, if it is this text once its white space is dropped. So two texts of the same
bytes differ in white space only. -/
theorem FieldType.read_bytes_iff_spaced (field : String) (bytes : List UInt8) (w : String) :
    (FieldType.bytes.read field w = .ok bytes ↔
      Spaced (Base64.encode bytes).toList w.toList) ∧
    (FieldType.bytes.read field w = .ok bytes ↔
      Base64.encode bytes = String.ofList (w.toList.filter (!isBlank ·))) ∧
    ∀ v : String, FieldType.bytes.read field v = .ok bytes →
      FieldType.bytes.read field w = .ok bytes →
      v.toList.filter (!isBlank ·) = w.toList.filter (!isBlank ·) := by
  have read : ∀ v : String, FieldType.bytes.read field v = .ok bytes ↔
      v.toList.filter (!isBlank ·) = (Base64.encode bytes).toList := by
    intro v
    rw [← Base64.bytesOfText_eq_ok_iff]
    exact Base64.mapError_eq_ok_iff
  refine ⟨(read w).trans Base64.spaced_encode_iff.symm, (read w).trans ?_, ?_⟩
  · rw [← String.toList_inj, String.toList_ofList]
    exact eq_comm
  · intro v readV readW
    exact ((read v).mp readV).trans ((read w).mp readW).symm

theorem FieldType.read_bytes_iff_spaced_padding :
    FieldType.bytes.read "byteArray" "Uw==" = .ok [0x53] ∧
      FieldType.bytes.read "byteArray" " U\u2003w\n=\u00A0=\t" = .ok [0x53] ∧
      "Uw==".toList.filter (!isBlank ·) =
        " U\u2003w\n=\u00A0=\t".toList.filter (!isBlank ·) := by
  obtain ⟨-, plain, -⟩ := read_bytes_iff_spaced "byteArray" [0x53] "Uw=="
  obtain ⟨-, spread, same⟩ := read_bytes_iff_spaced "byteArray" [0x53] " U\u2003w\n=\u00A0=\t"
  have readPlain := plain.mpr (by decide +kernel)
  have readSpread := spread.mpr (by decide +kernel)
  exact ⟨readPlain, readSpread, same _ readPlain readSpread⟩

end ShoreMetadata
