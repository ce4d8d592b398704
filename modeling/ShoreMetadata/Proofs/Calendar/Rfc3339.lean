import ShoreMetadata.Calendar.Rfc3339
import ShoreMetadata.Proofs.Calendar.Profile
import ShoreMetadata.Proofs.Number.Decimal

/-! Dates of JSON documents in years of four digits are read back to the nanosecond, unless they
lie in a leap second. -/

namespace ShoreMetadata.Calendar

open Number Text

/-- In a year of four digits and in no leap second. -/
structure Instant.Plain (t : Instant) : Prop where
  year : t.HasPlainYear
  nanos : t.nanos < 1000000000

instance (t : Instant) : Decidable t.Plain :=
  decidable_of_iff (t.HasPlainYear ∧ t.nanos < 1000000000)
    ⟨fun ⟨year, nanos⟩ => ⟨year, nanos⟩, fun plain => ⟨plain.year, plain.nanos⟩⟩

namespace Rfc3339

section

variable {width n : Nat} {rest : List Char}

private theorem number?_padded (positive : 0 < width) (fits : n < 10 ^ width) (rest : List Char) :
    number? width (padded width n ++ rest) = some (n, rest) := by
  have length := length_padded positive fits
  have digits := isDigit_of_mem_padded width n
  have solid : skip (padded width n ++ rest) = padded width n ++ rest :=
    Profile.dropWhile_padded fun c digit => isBlank_of_isDigit digit
  have run : ((padded width n ++ rest).take width).takeWhile Char.isDigit = padded width n := by
    rw [List.take_left' length, List.takeWhile_eq_self_iff]
    exact digits
  unfold number?
  simp only [solid, run]
  obtain ⟨c, cs, shape, _⟩ := exists_cons_padded width n
  split
  · rename_i empty
    exact absurd empty (padded_ne_nil width n)
  · rw [ofDigits_padded, List.drop_left]

private theorem mark?_cons {c : Char} (solid : isBlank c = false) (rest : List Char) :
    mark? c (c :: rest) = some rest := by
  have kept : skip (c :: rest) = c :: rest := List.dropWhile_cons_of_neg (by simp [solid])
  rw [mark?, kept]
  exact if_pos rfl

end

private theorem nanos?_padded {width m nanos : Nat} (positive : 0 < width) (few : width ≤ 9)
    (fits : m < 10 ^ width) (scaled : m * Nat.pow 10 (9 - width) = nanos) {rest : List Char}
    (ended : ∀ c, rest.head? = some c → c.isDigit = false) :
    nanos? ('.' :: padded width m ++ rest) = some (Fin.ofNat _ nanos, rest) := by
  have length := length_padded positive fits
  obtain ⟨run, after⟩ := takeWhile_digits (isDigit_of_mem_padded width m) rest ended
  have nine : (padded width m).take 9 = padded width m := List.take_of_length_le (by omega)
  rw [List.cons_append, nanos?, run, after]
  split
  · rename_i empty
    exact absurd empty (padded_ne_nil width m)
  · simp only [nine, length, ofDigits_padded, scaled]

private theorem nanos?_fractionChars {nanos : Nat} (small : nanos < 1000000000) {rest : List Char}
    (ended : ∀ c, rest.head? = some c → c.isDigit = false ∧ c ≠ '.') :
    nanos? (fractionChars nanos ++ rest) = some (Fin.ofNat _ nanos, rest) := by
  have noDigit := fun c head => (ended c head).1
  have whole : nanos % 1000000000 = nanos := Nat.mod_eq_of_lt small
  simp only [fractionChars, whole]
  split
  · rename_i zero
    rw [zero, List.nil_append]
    unfold nanos?
    split
    · exact absurd rfl (ended '.' rfl).2
    · rfl
  · split
    · have scaled : nanos / 1000000 * 1000000 = nanos := by omega
      exact nanos?_padded (by decide) (by decide) (by omega) scaled noDigit
    · split
      · have scaled : nanos / 1000 * 1000 = nanos := by omega
        exact nanos?_padded (by decide) (by decide) (by omega) scaled noDigit
      · exact nanos?_padded (by decide) (by decide) (by omega) (Nat.mul_one nanos) noDigit

private theorem year?_padded {n : Nat} (fits : n < 10 ^ 4) (rest : List Char) :
    year? (padded 4 n ++ rest) = some ((n : Int), rest) := by
  have solid : skip (padded 4 n ++ rest) = padded 4 n ++ rest :=
    Profile.dropWhile_padded fun c digit => isBlank_of_isDigit digit
  obtain ⟨c, cs, shape, digit⟩ := exists_cons_padded 4 n
  have read := number?_padded (by decide) fits rest
  unfold year?
  rw [solid]
  rw [shape, List.cons_append] at read ⊢
  split
  · rename_i same
    cases same
    contradiction
  · rename_i same
    cases same
    contradiction
  · rw [read]
    rfl

private theorem parts_lt {t : Instant} (plain : t.Plain) : t.date.year.toNat < 10 ^ 4 ∧
    t.date.month < 10 ^ 2 ∧ t.date.day < 10 ^ 2 ∧ t.hour < 24 ∧ t.minute < 60 ∧ t.second < 60 := by
  have year := plain.year.2
  have nanos := plain.nanos
  have valid : t.date.isValid = true := Date.isValid_ofDays _
  have length := daysInMonth_le t.date.year t.date.month
  simp only [Date.isValid, Bool.and_eq_true, decide_eq_true_eq] at valid
  have day : t.secondOfDay < 86400 := by
    unfold Instant.secondOfDay secondsPerDay
    omega
  unfold Instant.hour Instant.minute Instant.second
  omega

private theorem shift?_clock {t : Instant} (plain : t.Plain) :
    Instant.shift? ⟨(Instant.midnight t.date).seconds, t.nanos, t.nanos_lt⟩
      (3600 * t.hour + 60 * t.minute + t.second) = some t := by
  have seconds := t.midnight_add_clock
  rw [Nat.div_eq_of_lt plain.nanos, Int.natCast_zero, Int.add_zero] at seconds
  have inRange : t.inRange = true := Instant.inRange_of_hasPlainYear plain.year (by
    rw [Nat.div_eq_of_lt plain.nanos]
    exact (Int.add_zero _).symm)
  simp only [Instant.shift?, seconds]
  exact if_pos inRange

theorem parse?_format {t : Instant} (plain : t.Plain) : parse? (format t) = some t := by
  obtain ⟨year, month, day, hour, minute, second⟩ := parts_lt plain
  have written : yearChars t.date.year = padded 4 t.date.year.toNat := if_pos plain.year
  have date : Date.ofParts? t.date.year.toNat t.date.month t.date.day = some t.date := by
    rw [Int.toNat_of_nonneg plain.year.1]
    exact Date.ofParts?_date plain.year
  have utc : offset? (skip ['Z']) = some (0, []) := by decide
  have fraction : nanos? (fractionChars t.nanos ++ ['Z']) = some (Fin.ofNat _ t.nanos, ['Z']) :=
    nanos?_fractionChars plain.nanos (by rintro c ⟨⟩; decide)
  have dash := mark?_cons (c := '-') (by decide)
  have colon := mark?_cons (c := ':') (by decide)
  have mark : ∀ cs, dateTimeMark? ('T' :: cs) = some cs := fun _ => rfl
  have two := fun {n : Nat} (fits : n < 10 ^ 2) (cs : List Char) =>
    number?_padded (by decide) fits cs
  have inTime : ¬(skip [] ≠ [] ∨ 24 ≤ t.hour ∨ 60 ≤ t.minute ∨ 61 ≤ t.second) := by
    simp only [skip, List.dropWhile_nil, ne_eq, not_true_eq_false, false_or]
    omega
  have noLeap : t.second ≠ 60 := by omega
  have nanos : t.nanos % 1000000000 = t.nanos := Nat.mod_eq_of_lt plain.nanos
  rw [parse?, format, String.toList_ofList]
  simp only [dateTimeChars, written, List.append_assoc, List.cons_append]
  -- Each part of the text is read in turn.
  refine Option.bind_eq_some_iff.mpr ⟨_, year?_padded year _, ?_⟩
  refine Option.bind_eq_some_iff.mpr ⟨_, dash _, ?_⟩
  refine Option.bind_eq_some_iff.mpr ⟨_, two month _, ?_⟩
  refine Option.bind_eq_some_iff.mpr ⟨_, dash _, ?_⟩
  refine Option.bind_eq_some_iff.mpr ⟨_, two day _, ?_⟩
  refine Option.bind_eq_some_iff.mpr ⟨_, mark _, ?_⟩
  refine Option.bind_eq_some_iff.mpr ⟨_, two (Nat.lt_trans hour (by decide)) _, ?_⟩
  refine Option.bind_eq_some_iff.mpr ⟨_, colon _, ?_⟩
  refine Option.bind_eq_some_iff.mpr ⟨_, two (Nat.lt_trans minute (by decide)) _, ?_⟩
  refine Option.bind_eq_some_iff.mpr ⟨_, colon _, ?_⟩
  refine Option.bind_eq_some_iff.mpr ⟨_, two (Nat.lt_trans second (by decide)) _, ?_⟩
  refine Option.bind_eq_some_iff.mpr ⟨_, fraction, ?_⟩
  refine Option.bind_eq_some_iff.mpr ⟨_, utc, ?_⟩
  refine (if_neg inTime).trans (Option.bind_eq_some_iff.mpr ⟨_, date, ?_⟩)
  simp only [if_neg noLeap, Int.sub_zero, Fin.val_ofNat, nanos]
  exact shift?_clock plain

end Rfc3339

end ShoreMetadata.Calendar
