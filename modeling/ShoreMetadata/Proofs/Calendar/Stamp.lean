import ShoreMetadata.Calendar.Profile
import ShoreMetadata.Proofs.Calendar.Date
import ShoreMetadata.Proofs.Number.Integer

/-! Date texts as the profile describes them: they can be divided in one way only, and each stands
for the instant of its numbers. -/

namespace ShoreMetadata.Calendar

open Number Text

/-- The instant at a time of day in a place from where `correction` seconds lead to UTC. Hours,
minutes and seconds may exceed their usual limits. -/
def Instant.ofClock (date : Date) (hour minute second : Nat) (correction : Int) : Instant :=
  .ofSeconds (date.toDays * secondsPerDay + (3600 * hour + 60 * minute + second) + correction)

namespace Profile

theorem noDigit_of_isSeparator {c : Char} (separates : isSeparator c = true) :
    isScriptDigit c = false := by
  simp only [isSeparator, Bool.or_eq_true, beq_iff_eq] at separates
  rcases separates with (rfl | rfl) | rfl <;> decide

theorem noDigit_of_isBlank {c : Char} (blank : isBlank c = true) : isScriptDigit c = false := by
  simp only [isBlank, inRanges, blankRanges, List.any_cons, List.any_nil, Bool.or_false,
    Bool.or_eq_true, Bool.and_eq_true, decide_eq_true_eq] at blank
  simp only [isScriptDigit, inRanges, digitRanges, List.any_cons, List.any_nil, Bool.or_false,
    Bool.or_eq_false_iff, Bool.and_eq_false_iff, decide_eq_false_iff_not]
  omega

/-- A number in ASCII digits, zeros in front allowed. -/
structure Digits where
  chars : List Char
  ne_nil : chars ≠ []
  isDigit : ∀ c ∈ chars, c.isDigit = true

namespace Digits

variable (n : Digits)

def value : Nat :=
  ofDigits n.chars

def width : Nat :=
  n.chars.length

theorem natural?_chars : natural? n.chars = some n.value :=
  natural?_of_digits n.ne_nil n.isDigit

theorem isScriptDigit_of_mem : ∀ c ∈ n.chars, isScriptDigit c = true :=
  fun c member => isScriptDigit_of_isDigit (n.isDigit c member)

theorem exists_cons : ∃ c cs, n.chars = c :: cs ∧ c.isDigit = true := by
  obtain ⟨c, cs, shape⟩ := List.exists_cons_of_ne_nil n.ne_nil
  exact ⟨c, cs, shape, n.isDigit c (by rw [shape]; simp)⟩

theorem dropWhile_append {p : Char → Bool} (kept : ∀ c : Char, c.isDigit = true → p c = false)
    (rest : List Char) : (n.chars ++ rest).dropWhile p = n.chars ++ rest := by
  obtain ⟨c, cs, shape, digit⟩ := n.exists_cons
  rw [shape, List.cons_append, List.dropWhile_cons_of_neg (by simp [kept c digit])]

end Digits

section

variable {run rest : List Char}

theorem noDigit_of_head {first : List Char} (nonempty : first ≠ [])
    (noDigit : ∀ c ∈ first, isScriptDigit c = false) (rest : List Char) :
    ∀ c, (first ++ rest).head? = some c → isScriptDigit c = false := by
  intro c head
  rw [List.head?_append_of_ne_nil _ nonempty] at head
  exact noDigit c (List.mem_of_head? head)

theorem run?_append (nonempty : run ≠ []) (digits : ∀ c ∈ run, isScriptDigit c = true)
    (ended : ∀ c, rest.head? = some c → isScriptDigit c = false) :
    run? (run ++ rest) = some (run, rest) := by
  have taken : digitRun (run ++ rest) = run := takeWhile_append_of_head digits ended
  have after : afterRun (run ++ rest) = rest := dropWhile_append_of_head digits ended
  unfold run?
  rw [taken, after]
  split
  · contradiction
  · rfl

theorem Digits.run?_append (n : Digits)
    (ended : ∀ c, rest.head? = some c → isScriptDigit c = false) :
    run? (n.chars ++ rest) = some (n.chars, rest) :=
  Profile.run?_append n.ne_nil n.isScriptDigit_of_mem ended

private theorem separated?_append {separators : List Char} (n : Digits) (nonempty : separators ≠ [])
    (separate : ∀ c ∈ separators, isSeparator c = true)
    (ended : ∀ c, rest.head? = some c → isScriptDigit c = false) :
    separated? (separators ++ (n.chars ++ rest)) = some (n.chars, rest) := by
  obtain ⟨first, others, rfl⟩ := List.exists_cons_of_ne_nil nonempty
  have kept : ∀ c : Char, c.isDigit = true → isSeparator c = false := by
    intro c digit
    simp [isSeparator, ne_of_isDigit digit (show '/'.isDigit = false by decide),
      ne_of_isDigit digit (show '|'.isDigit = false by decide),
      ne_of_isDigit digit (show '-'.isDigit = false by decide)]
  have skipped : (others ++ (n.chars ++ rest)).dropWhile isSeparator = n.chars ++ rest := by
    rw [List.dropWhile_append_of_pos fun c member => separate c (by simp [member])]
    exact n.dropWhile_append kept rest
  rw [List.cons_append, separated?, if_pos (separate first (by simp)), skipped,
    n.run?_append ended]

private theorem clock?_append (hour minute second : Digits)
    (ended : ∀ c, rest.head? = some c → isScriptDigit c = false) :
    clock? (hour.chars ++ ':' :: (minute.chars ++ ':' :: (second.chars ++ rest))) =
      some (hour.chars, minute.chars, second.chars, rest) := by
  have colon : ∀ cs c, (':' :: cs : List Char).head? = some c → isScriptDigit c = false := by
    rintro cs c ⟨⟩
    decide
  simp only [clock?, hour.run?_append (colon _), colon?, minute.run?_append (colon _),
    second.run?_append ended, Option.bind_eq_bind, Option.bind_some, Option.pure_def]

private theorem clock?_eq_none (nonempty : run ≠ []) (digits : ∀ c ∈ run, isScriptDigit c = true)
    (ended : ∀ c, rest.head? = some c → isScriptDigit c = false)
    (noColon : rest.head? ≠ some ':') : clock? (run ++ rest) = none := by
  have stopped : colon? rest = none := by
    unfold colon?
    split
    · exact absurd rfl noColon
    · rfl
  simp only [clock?, run?_append nonempty digits ended, stopped, Option.bind_eq_bind,
    Option.bind_some, Option.bind_none]

end

/-- A date and a time of day as the profile has them: six numbers and what stands before and
between them. -/
structure Stamp where
  leading : List Char
  year : Digits
  afterYear : List Char
  month : Digits
  afterMonth : List Char
  day : Digits
  between : List Char
  hour : Digits
  minute : Digits
  second : Digits
  leading_blank : ∀ c ∈ leading, isBlank c = true
  width_year : year.width = 4
  afterYear_ne_nil : afterYear ≠ []
  afterYear_separates : ∀ c ∈ afterYear, isSeparator c = true
  afterMonth_ne_nil : afterMonth ≠ []
  afterMonth_separates : ∀ c ∈ afterMonth, isSeparator c = true
  between_ne_nil : between ≠ []
  between_noDigit : ∀ c ∈ between, isScriptDigit c = false
  between_noColon : between.head? ≠ some ':'
  width_hour : hour.width ≤ 9
  width_minute : minute.width ≤ 9
  width_second : second.width ≤ 9

namespace Stamp

variable (s : Stamp) {rest : List Char}

def chars : List Char :=
  s.leading ++ (s.year.chars ++ (s.afterYear ++ (s.month.chars ++ (s.afterMonth ++ (s.day.chars ++
    (s.between ++ (s.hour.chars ++ ':' :: (s.minute.chars ++ ':' :: s.second.chars))))))))

def date : Date :=
  ⟨s.year.value, s.month.value, s.day.value⟩

def instant (correction : Int) : Instant :=
  .ofClock s.date s.hour.value s.minute.value s.second.value correction

def fields (rest : List Char) : Fields where
  year := s.year.chars
  month := s.month.chars
  day := s.day.chars
  hour := s.hour.chars
  minute := s.minute.chars
  second := s.second.chars
  rest := rest

private theorem clock?_day (others : List Char) (long : 2 ≤ s.day.chars.length) :
    clock? (s.day.chars.drop (s.day.chars.length - 1) ++ (s.between ++ others)) = none := by
  refine clock?_eq_none ?_ (fun c member => s.day.isScriptDigit_of_mem c
    (List.mem_of_mem_drop member)) (noDigit_of_head s.between_ne_nil s.between_noDigit _) ?_
  · rw [ne_eq, List.drop_eq_nil_iff]
    omega
  · rw [List.head?_append_of_ne_nil _ s.between_ne_nil]
    exact s.between_noColon

private theorem candidates_append (ended : ∀ c, rest.head? = some c → isScriptDigit c = false) :
    candidates (s.chars ++ rest) = [s.fields rest] := by
  have toYear : ∀ others, (s.leading ++ (s.year.chars ++ others)).dropWhile isBlank =
      s.year.chars ++ others := by
    intro others
    rw [List.dropWhile_append_of_pos s.leading_blank]
    exact s.year.dropWhile_append (fun c => isBlank_of_isDigit) others
  have toHour : ∀ others, (s.between ++ (s.hour.chars ++ others)).dropWhile
      (!isScriptDigit ·) = s.hour.chars ++ others := by
    intro others
    rw [List.dropWhile_append_of_pos (by simpa using s.between_noDigit)]
    exact s.hour.dropWhile_append (fun c digit => by simp [isScriptDigit_of_isDigit digit]) others
  have yearEnd := noDigit_of_head s.afterYear_ne_nil
    fun c member => noDigit_of_isSeparator (s.afterYear_separates c member)
  have monthEnd := noDigit_of_head s.afterMonth_ne_nil
    fun c member => noDigit_of_isSeparator (s.afterMonth_separates c member)
  have dayEnd := noDigit_of_head s.between_ne_nil s.between_noDigit
  have fourDigits : ¬s.year.chars.length ≠ 4 := not_not_intro s.width_year
  simp only [chars, List.append_assoc, List.cons_append]
  unfold candidates
  simp only [toYear, s.year.run?_append (yearEnd _), if_neg fourDigits,
    separated?_append s.month s.afterYear_ne_nil s.afterYear_separates (monthEnd _),
    separated?_append s.day s.afterMonth_ne_nil s.afterMonth_separates (dayEnd _), toHour,
    clock?_append _ _ _ ended]
  by_cases long : 2 ≤ s.day.chars.length
  · rw [if_pos long, s.clock?_day _ long]
    rfl
  · rw [if_neg long]
    rfl

private theorem year_bounds : 0 ≤ s.date.year ∧ s.date.year ≤ 9999 := by
  have bound := ofDigits_lt s.year.isDigit
  have width : s.year.chars.length = 4 := s.width_year
  have same : s.date.year = (ofDigits s.year.chars : Nat) := rfl
  rw [width] at bound
  omega

theorem ofParts?_date : Date.ofParts? s.year.value s.month.value s.day.value =
    if s.date.isValid then some s.date else none := by
  have inRange : s.date.inRange = true := by
    have year := s.year_bounds
    simp only [Date.inRange, Bool.and_eq_true, decide_eq_true_eq]
    unfold leastYear mostYear
    omega
  simp only [Date.ofParts?]
  change (if s.date.isValid && s.date.inRange then some s.date else none) = _
  rw [inRange, Bool.and_true]

private theorem clock_lt :
    3600 * s.hour.value + 60 * s.minute.value + s.second.value < 3661 * 10 ^ 9 := by
  have bound : ∀ n : Digits, n.width ≤ 9 → n.value < 10 ^ 9 := fun n narrow =>
    Nat.lt_of_lt_of_le (ofDigits_lt n.isDigit) (Nat.pow_le_pow_right (by decide) narrow)
  have hour := bound s.hour s.width_hour
  have minute := bound s.minute s.width_minute
  have second := bound s.second s.width_second
  omega

private theorem inRange_instant (valid : s.date.isValid = true) {correction : Int}
    (near : -1000000 ≤ correction ∧ correction ≤ 1000000) :
    (s.instant correction).inRange = true := by
  have days := Date.toDays_bounds valid s.year_bounds
  have clock := s.clock_lt
  have least : Instant.least ≤ -719530 * 86400 - 1000000 := by decide
  have most : 2932900 * 86400 + 3661 * 10 ^ 9 + 1000000 ≤ Instant.most := by decide
  have seconds : (s.instant correction).seconds = s.date.toDays * 86400 +
      (3600 * s.hour.value + 60 * s.minute.value + s.second.value) + correction := rfl
  simp only [Instant.inRange, Bool.and_eq_true, decide_eq_true_eq]
  omega

private theorem local?_fields (rest : List Char) :
    (s.fields rest).local? = if s.date.isValid then some (s.instant 0) else none := by
  simp only [Fields.local?, fields, Digits.natural?_chars, s.ofParts?_date, Option.bind_eq_bind,
    Option.bind_some]
  split
  · rename_i valid
    have inRange : (s.instant 0).inRange = true := s.inRange_instant valid (by decide)
    have moved : (s.instant 0).seconds = (Instant.midnight s.date).seconds +
        (3600 * s.hour.value + 60 * s.minute.value + s.second.value) := Int.add_zero _
    rw [Option.bind_some]
    simp only [Instant.shift?, ← moved]
    exact if_pos inRange
  · rfl

section

variable {word trailing : List Char}

private theorem zone?_fields (nonempty : word ≠ [])
    (noDigit : ∀ c, word.head? = some c → isScriptDigit c = false)
    (solid : ∀ c ∈ word, isBlank c = false) (blank : ∀ c ∈ trailing, isBlank c = true) :
    (s.fields (word ++ trailing)).zone? = some word := by
  obtain ⟨c, cs, rfl⟩ := List.exists_cons_of_ne_nil nonempty
  have first : isScriptDigit c = false := noDigit c rfl
  have kept : isBlank c = false := solid c (by simp)
  have solidRest : ∀ d ∈ cs, (!isBlank d) = true := fun d member => by
    simp [solid d (by simp [member])]
  have stops : ∀ d, trailing.head? = some d → (!isBlank d) = false := fun d head => by
    simp [blank d (List.mem_of_head? head)]
  have run : (cs ++ trailing).takeWhile (!isBlank ·) = cs :=
    takeWhile_append_of_head solidRest stops
  have after : (cs ++ trailing).dropWhile (!isBlank ·) = trailing :=
    dropWhile_append_of_head solidRest stops
  have allBlank : trailing.all isBlank = true := List.all_eq_true.mpr blank
  simp [Fields.zone?, fields, kept, first, run, after, allBlank]

private theorem divide?_zoned (nonempty : word ≠ [])
    (noDigit : ∀ c, word.head? = some c → isScriptDigit c = false)
    (solid : ∀ c ∈ word, isBlank c = false) (blank : ∀ c ∈ trailing, isBlank c = true) :
    divide? (s.chars ++ (word ++ trailing)) =
      some (s.fields (word ++ trailing), some word) := by
  have ended : ∀ c, (word ++ trailing).head? = some c → isScriptDigit c = false := by
    intro c head
    rw [List.head?_append_of_ne_nil _ nonempty] at head
    exact noDigit c head
  simp only [divide?, s.candidates_append ended, List.findSome?_cons,
    s.zone?_fields nonempty noDigit solid blank, Option.map_some, Option.some_or]

theorem parseChars?_zoned (nonempty : word ≠ [])
    (noDigit : ∀ c, word.head? = some c → isScriptDigit c = false)
    (solid : ∀ c ∈ word, isBlank c = false) (blank : ∀ c ∈ trailing, isBlank c = true)
    {correction : Int} (corrects : correction? word = some correction)
    (near : -1000000 ≤ correction ∧ correction ≤ 1000000) :
    parseChars? (s.chars ++ (word ++ trailing)) =
      if s.date.isValid then some (s.instant correction) else none := by
  rw [parseChars?, s.divide?_zoned nonempty noDigit solid blank]
  simp only [Option.bind_eq_bind, Option.bind_some, local?_fields]
  split
  · rename_i valid
    have inRange := s.inRange_instant valid near
    have moved : (s.instant correction).seconds = (s.instant 0).seconds + correction := by
      simp [instant, Instant.ofClock, Instant.ofSeconds]
    rw [Option.bind_some, corrects, Option.bind_some]
    simp only [Instant.shift?, ← moved]
    exact if_pos inRange
  · rfl

theorem parseChars?_plain (blank : ∀ c ∈ trailing, isBlank c = true) :
    parseChars? (s.chars ++ trailing) = if s.date.isValid then some (s.instant 0) else none := by
  have ended : ∀ c, trailing.head? = some c → isScriptDigit c = false :=
    fun c head => noDigit_of_isBlank (blank c (List.mem_of_head? head))
  have noZone : (s.fields trailing).zone? = none := by
    have skipped : trailing.dropWhile isBlank = [] := List.dropWhile_eq_nil_iff.mpr blank
    simp only [Fields.zone?, fields, skipped]
  have plain : (s.fields trailing).endsPlainly = true := by
    simpa [Fields.endsPlainly, fields] using blank
  have divided : divide? (s.chars ++ trailing) = some (s.fields trailing, none) := by
    simp only [divide?, s.candidates_append ended, List.findSome?_cons, List.findSome?_nil, noZone,
      Option.map_none, List.find?_cons, plain, Option.map_some, Option.none_or]
  rw [parseChars?, divided]
  simp only [Option.bind_eq_bind, Option.bind_some, local?_fields]
  split <;> rfl

end

end Stamp

end Profile

end ShoreMetadata.Calendar
