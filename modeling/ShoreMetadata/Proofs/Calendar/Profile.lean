import ShoreMetadata.Proofs.Calendar.Division

/-! Dates in years of four digits are read back from their text, to the second; others are not. -/

namespace ShoreMetadata.Calendar

open Number Text

def Instant.HasPlainYear (t : Instant) : Prop :=
  0 ≤ t.date.year ∧ t.date.year ≤ 9999

instance (t : Instant) : Decidable t.HasPlainYear :=
  inferInstanceAs (Decidable (_ ∧ _))

theorem Date.ofParts?_date {t : Instant} (plain : t.HasPlainYear) :
    Date.ofParts? t.date.year t.date.month t.date.day = some t.date := by
  have valid : t.date.isValid = true := Date.isValid_ofDays _
  have inRange : t.date.inRange = true := by
    have bounds : 0 ≤ t.date.year ∧ t.date.year ≤ 9999 := plain
    simp only [Date.inRange, Bool.and_eq_true, decide_eq_true_eq]
    unfold leastYear mostYear
    omega
  simp [Date.ofParts?, valid, inRange]

section

variable (width n : Nat)

theorem isDigit_of_mem_padded : ∀ c ∈ padded width n, c.isDigit = true := by
  intro c member
  rcases List.mem_append.mp member with member | member
  · rw [List.eq_of_mem_replicate member]
    decide
  · exact isDigit_of_mem_digits member

theorem padded_ne_nil : padded width n ≠ [] := by
  simp [padded, digits_ne_nil]

theorem ofDigits_padded : ofDigits (padded width n) = n := by
  rw [padded, ofDigits, Nat.ofDigitChars_append, Nat.ofDigitChars_replicate_zero, Nat.mul_zero]
  exact ofDigits_digits n

theorem exists_cons_padded : ∃ c cs, padded width n = c :: cs ∧ c.isDigit = true := by
  obtain ⟨c, cs, shape⟩ := List.exists_cons_of_ne_nil (padded_ne_nil width n)
  exact ⟨c, cs, shape, isDigit_of_mem_padded width n c (by rw [shape]; simp)⟩

theorem length_padded {width n : Nat} (positive : 0 < width) (fits : n < 10 ^ width) :
    (padded width n).length = width := by
  have short : (digits n).length ≤ width :=
    (Nat.length_toDigits_le_iff (by decide) positive).mpr fits
  simp only [padded, List.length_append, List.length_replicate]
  omega

end

namespace Profile

def Digits.padded (width n : Nat) : Digits :=
  ⟨Calendar.padded width n, padded_ne_nil width n, isDigit_of_mem_padded width n⟩

theorem dropWhile_padded {width n : Nat} {rest : List Char} {p : Char → Bool}
    (kept : ∀ c : Char, c.isDigit = true → p c = false) :
    (padded width n ++ rest).dropWhile p = padded width n ++ rest :=
  (Digits.padded width n).dropWhile_append kept rest

private theorem Digits.value_padded (width n : Nat) : (Digits.padded width n).value = n :=
  ofDigits_padded width n

private theorem Digits.width_padded {width n : Nat} (positive : 0 < width) (fits : n < 10 ^ width) :
    (Digits.padded width n).width = width :=
  length_padded positive fits

def isoChars (date : Date) (hour minute second : Nat) : List Char :=
  padded 4 date.year.toNat ++ '-' :: padded 2 date.month ++ '-' :: padded 2 date.day
    ++ 'T' :: padded 2 hour ++ ':' :: padded 2 minute ++ ':' :: padded 2 second

def Stamp.iso (date : Date) (hour minute second : Nat) (years : 0 ≤ date.year ∧ date.year ≤ 9999)
    (short : hour < 100 ∧ minute < 100 ∧ second < 100) : Stamp where
  leading := []
  year := .padded 4 date.year.toNat
  afterYear := ['-']
  month := .padded 2 date.month
  afterMonth := ['-']
  day := .padded 2 date.day
  between := ['T']
  hour := .padded 2 hour
  minute := .padded 2 minute
  second := .padded 2 second
  leading_blank := by simp
  width_year := Digits.width_padded (by decide) (by omega)
  afterYear_ne_nil := by simp
  afterYear_separates := by simp [isSeparator]
  afterMonth_ne_nil := by simp
  afterMonth_separates := by simp [isSeparator]
  between_ne_nil := by simp
  between_noDigit := List.forall_mem_singleton.mpr (by decide)
  between_noColon := by decide
  width_hour := Nat.le_trans (Nat.le_of_eq (Digits.width_padded (by decide) short.1)) (by decide)
  width_minute := Nat.le_trans (Nat.le_of_eq (Digits.width_padded (by decide) short.2.1)) (by decide)
  width_second := Nat.le_trans (Nat.le_of_eq (Digits.width_padded (by decide) short.2.2)) (by decide)

section

variable {date : Date} {hour minute second : Nat} (years : 0 ≤ date.year ∧ date.year ≤ 9999)
  (short : hour < 100 ∧ minute < 100 ∧ second < 100)

private theorem Stamp.chars_iso :
    (iso date hour minute second years short).chars = isoChars date hour minute second := by
  simp [chars, iso, isoChars, Digits.padded]

private theorem Stamp.date_iso : (iso date hour minute second years short).date = date := by
  have year : (date.year.toNat : Int) = date.year := Int.toNat_of_nonneg years.1
  simp [Stamp.date, iso, Digits.value_padded, year]

private theorem Stamp.instant_iso (correction : Int) :
    (iso date hour minute second years short).instant correction =
      .ofClock date hour minute second correction := by
  rw [instant, date_iso]
  simp [iso, Digits.value_padded]

include years short in
theorem parse?_isoChars_append {word : List Char} (nonempty : word ≠ [])
    (noDigit : ∀ c, word.head? = some c → isScriptDigit c = false)
    (solid : ∀ c ∈ word, isBlank c = false) {correction : Int}
    (corrects : correction? word = some correction)
    (near : -1000000 ≤ correction ∧ correction ≤ 1000000) :
    parse? (String.ofList (isoChars date hour minute second ++ word)) =
      if date.isValid then some (.ofClock date hour minute second correction) else none := by
  have read := (Stamp.iso date hour minute second years short).parseChars?_zoned nonempty noDigit
    solid (List.forall_mem_nil _) corrects near
  rw [List.append_nil, Stamp.chars_iso, Stamp.date_iso, Stamp.instant_iso] at read
  rw [parse?, String.toList_ofList, read]

end

end Profile

namespace Instant

private theorem day_bounds_of_hasPlainYear {t : Instant} (plain : t.HasPlainYear) :
    -719530 ≤ t.seconds / secondsPerDay ∧ t.seconds / secondsPerDay ≤ 2932898 := by
  have days : t.date.toDays = t.seconds / secondsPerDay := Date.toDays_ofDays _
  have bounds : -719528 ≤ t.date.toDays ∧ t.date.toDays ≤ 2932896 :=
    Date.toDays_bounds (Date.isValid_ofDays _) plain
  omega

private theorem inRange_of_bounds {t : Instant} (above : -719530 * 86400 ≤ t.seconds)
    (below : t.seconds ≤ 2932900 * 86400) : t.inRange = true := by
  have least : least ≤ -719530 * 86400 := by decide
  have most : 2932900 * 86400 ≤ most := by decide
  simp only [inRange, Bool.and_eq_true, decide_eq_true_eq]
  omega

private theorem clock_eq (t : Instant) :
    (3600 * t.hour + 60 * t.minute + t.second : Int) =
      t.seconds % secondsPerDay + (t.nanos / 1000000000 : Nat) := by
  unfold hour minute second secondOfDay secondsPerDay
  omega

theorem midnight_add_clock (t : Instant) :
    (midnight t.date).seconds + (3600 * t.hour + 60 * t.minute + t.second) =
      t.seconds + (t.nanos / 1000000000 : Nat) := by
  have days : t.date.toDays = t.seconds / secondsPerDay := Date.toDays_ofDays _
  have whole := Int.mul_ediv_add_emod t.seconds secondsPerDay
  rw [t.clock_eq, midnight, ofSeconds, days]
  simp only
  rw [Int.mul_comm] at whole
  omega

theorem inRange_of_hasPlainYear {t moved : Instant} (plain : t.HasPlainYear)
    (near : moved.seconds = t.seconds + (t.nanos / 1000000000 : Nat)) : moved.inRange = true := by
  have bounds := t.day_bounds_of_hasPlainYear plain
  have small := t.nanos_lt
  unfold secondsPerDay at bounds
  apply inRange_of_bounds
  · omega
  · omega

end Instant

namespace Profile

private theorem dateTimeChars_eq {t : Instant} (plain : t.HasPlainYear) :
    dateTimeChars t = isoChars t.date t.hour t.minute t.second := by
  have year : yearChars t.date.year = padded 4 t.date.year.toNat := if_pos plain
  rw [dateTimeChars, year]
  rfl

private theorem clock_lt_hundred (t : Instant) :
    t.hour < 100 ∧ t.minute < 100 ∧ t.second < 100 := by
  have small := t.nanos_lt
  unfold Instant.hour Instant.minute Instant.second Instant.secondOfDay secondsPerDay
  omega

/-- A leap second is read as the second after it. -/
theorem parse?_format {t : Instant} (plain : t.HasPlainYear) :
    parse? (format t) = some (.ofSeconds (t.seconds + (t.nanos / 1000000000 : Nat))) := by
  have valid : t.date.isValid = true := Date.isValid_ofDays _
  have utc : correction? ['Z'] = some 0 := by decide +kernel
  have seconds : t.date.toDays * secondsPerDay + (3600 * t.hour + 60 * t.minute + t.second) =
      t.seconds + (t.nanos / 1000000000 : Nat) := t.midnight_add_clock
  have read := parse?_isoChars_append plain (clock_lt_hundred t) (by simp)
    (by rintro c ⟨⟩; decide) (List.forall_mem_singleton.mpr (by decide)) utc (by decide)
  rw [if_pos valid, Instant.ofClock, Int.add_zero, seconds, ← dateTimeChars_eq plain] at read
  exact read

theorem parse?_format_whole {t : Instant} (plain : t.HasPlainYear) (whole : t.nanos = 0) :
    parse? (format t) = some t := by
  rw [parse?_format plain]
  obtain ⟨seconds, nanos, nanos_lt⟩ := t
  cases whole
  simp [Instant.ofSeconds]

theorem nanos_parse? {s : String} {t : Instant} (parsed : parse? s = some t) : t.nanos = 0 := by
  obtain ⟨_, _, _, reads⟩ := exists_reads_of_parse? parsed
  cases reads
  rfl

/-! Years that are written with a sign are not read. -/

private theorem divide?_of_head {c : Char} (solid : isBlank c = false)
    (noDigit : isScriptDigit c = false) (cs : List Char) : divide? (c :: cs) = none := by
  have noRun : run? (c :: cs) = none := by
    rw [run?, digitRun, List.takeWhile_cons_of_neg (by simp [noDigit])]
  have noCandidate : candidates (c :: cs) = [] := by
    rw [candidates, List.dropWhile_cons_of_neg (by simp [solid]), noRun]
  rw [divide?, noCandidate]
  rfl

private theorem parse?_format_of_signed {t : Instant} (signed : ¬t.HasPlainYear) :
    parse? (format t) = none := by
  have year : yearChars t.date.year =
      (if t.date.year < 0 then '-' else '+') :: padded 4 t.date.year.natAbs := if_neg signed
  have undivided : ∀ cs, divide? ((if t.date.year < 0 then '-' else '+') :: cs) = none := by
    split <;> exact divide?_of_head (by decide) (by decide)
  rw [parse?, format, String.toList_ofList, parseChars?]
  simp only [dateTimeChars, year, List.cons_append, undivided]
  rfl

/-- A date that was read is read back from its text just if its year has four digits. -/
theorem parse?_format_of_parse? {s : String} {t : Instant} (read : parse? s = some t) :
    parse? (format t) = if t.HasPlainYear then some t else none := by
  split
  · rename_i plain
    exact parse?_format_whole plain (nanos_parse? read)
  · rename_i signed
    exact parse?_format_of_signed signed

theorem parse?_format_of_parse?_zoned :
    let t := Instant.ofSeconds (-885708420)
    parse? "1941-12-07 07:53:00-09:60" = some t ∧ parse? (format t) = some t := by
  intro t
  have read : parse? "1941-12-07 07:53:00-09:60" = some t := by decide +kernel
  exact ⟨read, (parse?_format_of_parse? read).trans (if_pos (by decide +kernel))⟩

theorem year_10000_not_read_back :
    let t := Instant.ofSeconds 253402336799
    parse? "9999-12-31T23:59:59-10" = some t ∧ format t = "+10000-01-01T09:59:59Z" ∧
      parse? (format t) = none := by
  decide +kernel

end Profile

end ShoreMetadata.Calendar
