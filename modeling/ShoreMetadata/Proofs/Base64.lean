import ShoreMetadata.Scalar

/-! Every byte list is read back from its text. -/

namespace ShoreMetadata.Base64

open Text

private theorem value?_symbol {n : Nat} (small : n < 64) : value? (symbol n) = some n := by
  revert n
  decide

private theorem symbol_ne_pad {n : Nat} (small : n < 64) : symbol n ≠ pad := by
  revert n
  decide

private theorem values_symbols (offset : Nat) {vs : List Nat} (small : ∀ v ∈ vs, v < 64) :
    values offset (vs.map symbol) = .ok vs := by
  induction vs generalizing offset with
  | nil => rfl
  | cons v rest ih =>
      rw [List.forall_mem_cons] at small
      rw [List.map_cons, values, value?_symbol small.1, ih (offset + 1) small.2]
      rfl

theorem filterMap_symbols {vs : List Nat} (small : ∀ v ∈ vs, v < 64) :
    (vs.map symbol).filterMap value? = vs := by
  induction vs with
  | nil => rfl
  | cons v rest ih =>
      rw [List.forall_mem_cons] at small
      rw [List.map_cons, List.filterMap_cons, value?_symbol small.1, ih small.2]

private theorem lastSymbols_pads (offset place pads : Nat) (late : 2 ≤ place) :
    lastSymbols offset place (List.replicate pads pad) = .ok [] := by
  cases pads with
  | zero => rfl
  | succ more => simp [List.replicate_succ, lastSymbols, Nat.not_lt.mpr late]

private theorem lastSymbols_padded (offset place pads : Nat) {vs : List Nat}
    (small : ∀ v ∈ vs, v < 64) (late : 2 ≤ place + vs.length) :
    lastSymbols offset place (vs.map symbol ++ List.replicate pads pad)
      = .ok (vs.map symbol) := by
  induction vs generalizing place with
  | nil => exact lastSymbols_pads offset place pads late
  | cons v rest ih =>
      rw [List.forall_mem_cons] at small
      have more := ih (place + 1) small.2 (by simp at late; omega)
      rw [List.map_cons, List.cons_append, lastSymbols, if_neg (symbol_ne_pad small.1),
        value?_symbol small.1, more]
      rfl

private theorem decodeLast_padded (offset pads : Nat) {vs : List Nat} {bytes : List UInt8}
    (small : ∀ v ∈ vs, v < 64) (atLeast : 2 ≤ vs.length) (full : vs.length + pads = 4)
    (group : groupBytes vs = (bytes, true)) :
    decodeLast offset (vs.map symbol ++ List.replicate pads pad) = .ok bytes := by
  have read := lastSymbols_padded offset 0 pads small (by omega)
  rw [decodeLast, read]
  change (if (vs.map symbol).length < 2 then _ else _) = _
  rw [List.length_map, if_neg (by omega), if_neg (by simp [full]), filterMap_symbols small, group]
  rfl

private theorem decodeGroups_cons (offset : Nat) {vs : List Nat} {bytes more : List UInt8}
    {rest : List UInt8} (small : ∀ v ∈ vs, v < 64) (four : vs.length = 4) (nonempty : rest ≠ [])
    (group : groupBytes vs = (bytes, true)) (decoded : decodeGroups (offset + 4) rest = .ok more) :
    decodeGroups offset (vs.map symbol ++ rest) = .ok (bytes ++ more) := by
  obtain ⟨e, others, rfl⟩ := List.exists_cons_of_ne_nil nonempty
  match vs, four with
  | [a, b, c, d], _ =>
      have read := values_symbols offset small
      simp only [List.map_cons, List.map_nil] at read
      simp only [List.map_cons, List.map_nil, List.cons_append, List.nil_append]
      rw [decodeGroups, read, decoded]
      change Except.ok ((groupBytes [a, b, c, d]).1 ++ more) = _
      rw [group]

private theorem decodeGroups_last (offset : Nat) {group : List UInt8} (four : group.length = 4) :
    decodeGroups offset group = decodeLast offset group := by
  match group, four with
  | [_, _, _, _], _ => rfl

private theorem encodeBytes_ne_nil {bytes : List UInt8} (nonempty : bytes ≠ []) :
    encodeBytes bytes ≠ [] := by
  unfold encodeBytes
  split <;> simp_all

private theorem groupBytes_one (a : UInt8) :
    groupBytes [a.toNat / 4, a.toNat % 4 * 16] = ([a], true) := by
  have byte : UInt8.ofNat (a.toNat / 4 * 4 + a.toNat % 4 * 16 / 16) = a := by
    rw [← UInt8.toNat_inj, UInt8.toNat_ofNat']
    have bound := a.toNat_lt
    omega
  rw [groupBytes, byte, Nat.mul_mod_left]
  rfl

private theorem groupBytes_two (a b : UInt8) :
    let n := a.toNat * 256 + b.toNat
    groupBytes [n / 1024, n / 16 % 64, n % 16 * 4] = ([a, b], true) := by
  intro n
  have boundA := a.toNat_lt
  have boundB := b.toNat_lt
  have first : UInt8.ofNat (n / 1024 * 4 + n / 16 % 64 / 16) = a := by
    rw [← UInt8.toNat_inj, UInt8.toNat_ofNat']
    omega
  have second : UInt8.ofNat (n / 16 % 64 % 16 * 16 + n % 16 * 4 / 4) = b := by
    rw [← UInt8.toNat_inj, UInt8.toNat_ofNat']
    omega
  have exact : n % 16 * 4 % 4 = 0 := Nat.mul_mod_left _ _
  rw [groupBytes, first, second, exact]
  rfl

private theorem groupBytes_three (a b c : UInt8) :
    let n := (a.toNat * 256 + b.toNat) * 256 + c.toNat
    groupBytes [n / 262144, n / 4096 % 64, n / 64 % 64, n % 64] = ([a, b, c], true) := by
  intro n
  have boundA := a.toNat_lt
  have boundB := b.toNat_lt
  have boundC := c.toNat_lt
  have first : UInt8.ofNat (n / 262144 * 4 + n / 4096 % 64 / 16) = a := by
    rw [← UInt8.toNat_inj, UInt8.toNat_ofNat']
    omega
  have second : UInt8.ofNat (n / 4096 % 64 % 16 * 16 + n / 64 % 64 / 4) = b := by
    rw [← UInt8.toNat_inj, UInt8.toNat_ofNat']
    omega
  have third : UInt8.ofNat (n / 64 % 64 % 4 * 64 + n % 64) = c := by
    rw [← UInt8.toNat_inj, UInt8.toNat_ofNat']
    omega
  rw [groupBytes, first, second, third]

private theorem decodeGroups_encodeBytes (offset : Nat) (bytes : List UInt8) :
    decodeGroups offset (encodeBytes bytes) = .ok bytes := by
  induction bytes using encodeBytes.induct generalizing offset with
  | case1 => rfl
  | case2 a =>
      have bound := a.toNat_lt
      rw [decodeGroups_last offset rfl]
      exact decodeLast_padded offset 2 (by simp; omega) (by simp) rfl (groupBytes_one a)
  | case3 a b =>
      have boundA := a.toNat_lt
      have boundB := b.toNat_lt
      rw [decodeGroups_last offset rfl]
      exact decodeLast_padded offset 1 (by simp; omega) (by simp) rfl (groupBytes_two a b)
  | case4 a b c rest ih =>
      have boundA := a.toNat_lt
      have boundB := b.toNat_lt
      have boundC := c.toNat_lt
      by_cases last : rest = []
      · subst last
        rw [decodeGroups_last offset rfl]
        exact decodeLast_padded offset 0 (by simp; omega) (by simp) rfl
          (groupBytes_three a b c)
      · exact decodeGroups_cons offset (by simp; omega) rfl (encodeBytes_ne_nil last)
          (groupBytes_three a b c) (ih (offset + 4))

private theorem length_encodeBytes (bytes : List UInt8) : (encodeBytes bytes).length % 4 = 0 := by
  induction bytes using encodeBytes.induct with
  | case1 => rfl
  | case2 a => simp [encodeBytes]
  | case3 a b => simp [encodeBytes]
  | case4 a b c rest ih =>
      rw [encodeBytes]
      simp only [List.length_cons]
      omega

theorem decode_encodeBytes (bytes : List UInt8) : decode (encodeBytes bytes) = .ok bytes := by
  have whole := length_encodeBytes bytes
  unfold decode
  cases last : (encodeBytes bytes).getLast? with
  | none =>
      rw [List.getLast?_eq_none_iff] at last
      cases bytes with
      | nil => rfl
      | cons b rest => exact absurd last (encodeBytes_ne_nil (by simp))
  | some b =>
      simp only [whole, Nat.zero_ne_one, false_and, if_false]
      exact decodeGroups_encodeBytes 0 bytes

private theorem symbol_cases (n : Nat) : ∃ m < 64, symbol n = symbol m := by
  by_cases small : n < 64
  · exact ⟨n, small, rfl⟩
  · refine ⟨63, by decide, ?_⟩
    simp only [symbol]
    rw [if_neg (by omega), if_neg (by omega), if_neg (by omega), if_neg (by omega)]
    rfl

def IsPlain (b : UInt8) : Prop :=
  String.utf8EncodeChar (Char.ofNat b.toNat) = [b] ∧ isBlank (Char.ofNat b.toNat) = false

private theorem isPlain_symbol (n : Nat) : IsPlain (symbol n) := by
  obtain ⟨m, small, same⟩ := symbol_cases n
  rw [same]
  clear same
  revert m
  unfold IsPlain
  decide +kernel

private theorem isPlain_pad : IsPlain pad := by
  unfold IsPlain
  decide

theorem isPlain_of_mem_encodeBytes {bytes : List UInt8} :
    ∀ b ∈ encodeBytes bytes, IsPlain b := by
  induction bytes using encodeBytes.induct with
  | case1 => simp [encodeBytes]
  | case2 a => simp [encodeBytes, isPlain_symbol, isPlain_pad]
  | case3 a b => simp [encodeBytes, isPlain_symbol, isPlain_pad]
  | case4 a b c rest ih => simpa [encodeBytes, isPlain_symbol] using ih

theorem utf8Bytes_filter_plain {bytes : List UInt8} (plain : ∀ b ∈ bytes, IsPlain b) :
    utf8Bytes ((bytes.map fun b => Char.ofNat b.toNat).filter (!isBlank ·)) = bytes := by
  induction bytes with
  | nil => rfl
  | cons b rest ih =>
      rw [List.forall_mem_cons] at plain
      rw [List.map_cons, List.filter_cons_of_pos (by simp [plain.1.2]), utf8Bytes,
        List.flatMap_cons, plain.1.1, ← utf8Bytes, ih plain.2]
      rfl

theorem bytesOfText_encode (bytes : List UInt8) : bytesOfText (encode bytes) = .ok bytes := by
  rw [bytesOfText, encode, String.toList_ofList,
    utf8Bytes_filter_plain isPlain_of_mem_encodeBytes, decode_encodeBytes]

end ShoreMetadata.Base64
