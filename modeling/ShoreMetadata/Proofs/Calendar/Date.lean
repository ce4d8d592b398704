import ShoreMetadata.Calendar.Date

/-! Days and their numbers determine each other. -/

namespace ShoreMetadata.Calendar

/-- A day number as whole cycles, centuries, leap cycles and years before it and the day
in its year. Only the last year of a leap cycle has a leap day, and the last of these in
a century only in the last century. -/
theorem yearOfDay_parts (n : Int) :
    ∃ (cycle century four one : Int) (day : Nat),
      yearOfDay n = (400 * cycle + 100 * century + 4 * four + one, day) ∧
      n = 146097 * cycle + 36524 * century + 1461 * four + 365 * one + day ∧
      (0 ≤ century ∧ century ≤ 3) ∧ (0 ≤ four ∧ four ≤ 24) ∧ (0 ≤ one ∧ one ≤ 3) ∧
      day ≤ 365 ∧ (day = 365 → one = 3 ∧ (four = 24 → century = 3)) := by
  refine ⟨_, _, _, _, _, rfl, ?_⟩
  omega

variable (n : Int)

private theorem yearStart_yearOfDay : yearStart (yearOfDay n).1 + (yearOfDay n).2 = n := by
  obtain ⟨cycle, century, four, one, day, parts, sum, bounds⟩ := yearOfDay_parts n
  rw [parts]
  simp only [yearStart]
  omega

private theorem day_yearOfDay_le : (yearOfDay n).2 ≤ 365 := by
  obtain ⟨cycle, century, four, one, day, parts, sum, bounds⟩ := yearOfDay_parts n
  rw [parts]
  exact bounds.2.2.2.1

private theorem isLeapYear_of_leap_day (leap : (yearOfDay n).2 = 365) :
    isLeapYear ((yearOfDay n).1 + 1) = true := by
  obtain ⟨cycle, century, four, one, day, parts, sum, bounds⟩ := yearOfDay_parts n
  rw [parts] at leap ⊢
  simp only [isLeapYear, Bool.and_eq_true, Bool.or_eq_true, beq_iff_eq, bne_iff_ne] at leap ⊢
  omega

/-! Months of a year counted from March. -/

private theorem monthStart_le (day : Nat) : monthStart ((5 * day + 2) / 153) ≤ day := by
  unfold monthStart
  omega

private theorem day_le_before_january : ∀ day < 366, (5 * day + 2) / 153 < 10 →
    day - monthStart ((5 * day + 2) / 153) + 1 ≤ daysInMonth 0 ((5 * day + 2) / 153 + 3) := by
  decide +kernel

private theorem day_le_from_january : ∀ day < 366, 10 ≤ (5 * day + 2) / 153 →
    ((5 * day + 2) / 153 = 10 ∧ day - monthStart 10 + 1 ≤ 31) ∨
      ((5 * day + 2) / 153 = 11 ∧ day - monthStart 11 + 1 ≤ if day = 365 then 29 else 28) := by
  decide +kernel

private theorem daysInMonth_of_ne {month : Nat} (year : Int) (noFebruary : month ≠ 2) :
    daysInMonth year month = daysInMonth 0 month := by
  unfold daysInMonth
  split <;> simp_all

theorem daysInMonth_le (year : Int) (month : Nat) : daysInMonth year month ≤ 31 := by
  unfold daysInMonth
  split <;> (try split) <;> decide

namespace Date

theorem toDays_ofDays : (ofDays n).toDays = n := by
  have sum := yearStart_yearOfDay (n + epochDay)
  have start := monthStart_le (yearOfDay (n + epochDay)).2
  have bound := day_yearOfDay_le (n + epochDay)
  unfold ofDays
  generalize yearOfDay (n + epochDay) = parts at sum start bound
  obtain ⟨year, day⟩ := parts
  simp only at sum start bound ⊢
  split
  · rename_i before
    rw [toDays, if_neg (by simp), Nat.add_sub_cancel]
    simp only
    omega
  · rename_i after
    have same : (5 * day + 2) / 153 - 9 + 9 = (5 * day + 2) / 153 := by omega
    rw [toDays, if_pos (by simp only; omega)]
    simp only [Int.add_sub_cancel, same]
    omega

theorem isValid_ofDays : (ofDays n).isValid = true := by
  have bound := day_yearOfDay_le (n + epochDay)
  have leap := isLeapYear_of_leap_day (n + epochDay)
  unfold ofDays
  generalize yearOfDay (n + epochDay) = parts at bound leap
  obtain ⟨year, day⟩ := parts
  simp only at bound leap ⊢
  split
  · rename_i before
    have fits := day_le_before_january day (by omega) before
    rw [← daysInMonth_of_ne year (by omega)] at fits
    simp only [isValid, Bool.and_eq_true, decide_eq_true_eq]
    omega
  · rename_i after
    simp only [isValid, Bool.and_eq_true, decide_eq_true_eq]
    rcases day_le_from_january day (by omega) (by omega) with ⟨january, fits⟩ | ⟨february, fits⟩
    · rw [january]
      refine ⟨⟨⟨by decide, by decide⟩, by omega⟩, ?_⟩
      exact fits
    · rw [february]
      refine ⟨⟨⟨by decide, by decide⟩, by omega⟩, ?_⟩
      simp only [daysInMonth]
      split at fits
      · rename_i last
        rw [leap last]
        exact fits
      · split <;> omega

theorem toDays_bounds {d : Date} (valid : d.isValid = true) (years : 0 ≤ d.year ∧ d.year ≤ 9999) :
    -719528 ≤ d.toDays ∧ d.toDays ≤ 2932896 := by
  obtain ⟨year, month, day⟩ := d
  simp only [isValid, Bool.and_eq_true, decide_eq_true_eq] at valid years
  have dayBound : day ≤ 31 := Nat.le_trans valid.2 (daysInMonth_le year month)
  simp only [toDays, yearStart, monthStart, epochDay]
  split <;> omega

end Date

end ShoreMetadata.Calendar
