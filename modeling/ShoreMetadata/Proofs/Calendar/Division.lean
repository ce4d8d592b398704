import ShoreMetadata.Proofs.Calendar.Stamp

/-! A date is read from the numbers of its text, the maximal runs of digits, in their order. Only
where a colon follows the third number directly may that one be cut into a day and an hour. -/

namespace ShoreMetadata.Calendar.Profile

open Number Text

def digitRuns (cs : List Char) : List (List Char) :=
  (cs.splitOnP (!isScriptDigit ·)).filter (!·.isEmpty)

def afterNumber (cs : List Char) : List Char :=
  afterRun (cs.dropWhile (!isScriptDigit ·))

private theorem digitRuns_cons_of_noDigit {c : Char} (noDigit : isScriptDigit c = false)
    (cs : List Char) : digitRuns (c :: cs) = digitRuns cs := by
  simp [digitRuns, List.splitOnP_cons_eq_if_modifyHead, noDigit]

section

variable {cs run rest : List Char}

private theorem digitRuns_dropWhile {p : Char → Bool}
    (noDigit : ∀ c, p c = true → isScriptDigit c = false) (cs : List Char) :
    digitRuns (cs.dropWhile p) = digitRuns cs := by
  induction cs with
  | nil => rfl
  | cons c cs ih =>
      by_cases dropped : p c = true
      · rw [List.dropWhile_cons_of_pos dropped, ih, digitRuns_cons_of_noDigit (noDigit c dropped)]
      · rw [List.dropWhile_cons_of_neg dropped]

theorem run?_spec (read : run? cs = some (run, rest)) :
    cs = run ++ rest ∧ run ≠ [] ∧ (∀ c ∈ run, isScriptDigit c = true) ∧
      ∀ c, rest.head? = some c → isScriptDigit c = false := by
  unfold run? at read
  split at read
  · cases read
  · rename_i nonempty
    cases read
    refine ⟨(List.takeWhile_append_dropWhile ..).symm, nonempty, fun c member => ?_,
      fun c head => head?_dropWhile head⟩
    exact List.all_eq_true.mp List.all_takeWhile c member

private theorem digitRuns_of_run? (read : run? cs = some (run, rest)) :
    digitRuns cs = run :: digitRuns rest := by
  obtain ⟨rfl, nonempty, digits, ended⟩ := run?_spec read
  have kept : ∀ c ∈ run, (!isScriptDigit c) = false := fun c member => by simp [digits c member]
  cases rest with
  | nil =>
      rw [List.append_nil, digitRuns, List.splitOnP_eq_singleton kept]
      simp [digitRuns, nonempty]
  | cons c rest =>
      have noDigit : isScriptDigit c = false := ended c rfl
      rw [digitRuns_cons_of_noDigit noDigit, digitRuns,
        List.splitOnP_append_cons_of_forall_mem kept c (by simp [noDigit])]
      simp [digitRuns, nonempty]

theorem dropWhile_run (nonempty : run ≠ []) (digits : ∀ c ∈ run, isScriptDigit c = true)
    (rest : List Char) : (run ++ rest).dropWhile (!isScriptDigit ·) = run ++ rest := by
  obtain ⟨c, others, rfl⟩ := List.exists_cons_of_ne_nil nonempty
  rw [List.cons_append, List.dropWhile_cons_of_neg (by simp [digits c (by simp)])]

private theorem afterNumber_of_run? {p : Char → Bool}
    (noDigit : ∀ c, p c = true → isScriptDigit c = false)
    (read : run? (cs.dropWhile p) = some (run, rest)) : afterNumber cs = rest := by
  obtain ⟨whole, nonempty, digits, ended⟩ := run?_spec read
  have dropped : ∀ cs : List Char, cs.dropWhile (!isScriptDigit ·) =
      (cs.dropWhile p).dropWhile (!isScriptDigit ·) := by
    intro cs
    induction cs with
    | nil => rfl
    | cons c cs ih =>
        by_cases skipped : p c = true
        · rw [List.dropWhile_cons_of_pos skipped,
            List.dropWhile_cons_of_pos (by simp [noDigit c skipped]), ih]
        · rw [List.dropWhile_cons_of_neg skipped]
  rw [afterNumber, dropped, whole, dropWhile_run nonempty digits, afterRun,
    List.dropWhile_append_of_pos digits]
  exact dropWhile_of_head ended

private theorem run?_of_separated? (read : separated? cs = some (run, rest)) :
    run? (cs.dropWhile isSeparator) = some (run, rest) := by
  unfold separated? at read
  split at read
  · split at read
    · rename_i separates
      rwa [List.dropWhile_cons_of_pos separates]
    · cases read
  · cases read

private theorem digitRuns_of_separated? (read : separated? cs = some (run, rest)) :
    digitRuns cs = run :: digitRuns rest := by
  rw [← digitRuns_of_run? (run?_of_separated? read)]
  exact (digitRuns_dropWhile (fun c => noDigit_of_isSeparator) cs).symm

private theorem colon?_eq_some (read : colon? cs = some rest) : cs = ':' :: rest := by
  unfold colon? at read
  split at read <;> cases read
  rfl

private theorem clock?_spec {hour minute second : List Char}
    (read : clock? cs = some (hour, minute, second, rest)) :
    ∃ afterHour, run? cs = some (hour, ':' :: afterHour) ∧
      digitRuns afterHour = minute :: second :: digitRuns rest := by
  simp only [clock?, Option.bind_eq_bind, Option.bind_eq_some_iff, Option.pure_def,
    Option.some.injEq, Prod.exists, Prod.mk.injEq] at read
  obtain ⟨_, _, hourRead, _, hourEnd, _, _, minuteRead, _, minuteEnd, _, _, secondRead, rfl, rfl,
    rfl, rfl⟩ := read
  cases colon?_eq_some hourEnd
  cases colon?_eq_some minuteEnd
  have skip : ∀ cs, digitRuns (':' :: cs) = digitRuns cs := digitRuns_cons_of_noDigit (by decide)
  exact ⟨_, hourRead, by rw [digitRuns_of_run? minuteRead, skip, digitRuns_of_run? secondRead]⟩

end

namespace Fields

def numbers (fields : Fields) : List (List Char) :=
  [fields.year, fields.month, fields.day, fields.hour, fields.minute, fields.second]

/-- The fields are the first numbers of the text. -/
def Apart (fields : Fields) (cs : List Char) : Prop :=
  digitRuns cs = fields.numbers ++ digitRuns fields.rest

/-- The third number of the text is cut, and its last digit is the hour. -/
structure Joined (fields : Fields) (cs : List Char) : Prop where
  colon : (afterNumber (afterNumber (afterNumber cs))).head? = some ':'
  digitRuns_eq : digitRuns cs = fields.year :: fields.month :: (fields.day ++ fields.hour) ::
    fields.minute :: fields.second :: digitRuns fields.rest
  day_ne_nil : fields.day ≠ []
  hour : fields.hour.length = 1

end Fields

private theorem apart_or_joined_of_mem_candidates {cs : List Char} {fields : Fields}
    (member : fields ∈ candidates cs) : fields.Apart cs ∨ fields.Joined cs := by
  unfold candidates at member
  split at member
  · cases member
  rename_i year afterYear yearRead
  split at member
  · cases member
  split at member
  · cases member
  rename_i month afterMonth monthRead
  split at member
  · cases member
  rename_i day afterDay dayRead
  have blankNoDigit : ∀ c, isBlank c = true → isScriptDigit c = false :=
    fun c => noDigit_of_isBlank
  have dateRuns : digitRuns cs = year :: month :: day :: digitRuns afterDay := by
    rw [← digitRuns_dropWhile blankNoDigit cs, digitRuns_of_run? yearRead,
      digitRuns_of_separated? monthRead, digitRuns_of_separated? dayRead]
  rcases List.mem_append.mp member with apart | joined
  · left
    obtain ⟨⟨hour, minute, second, rest⟩, read, rfl⟩ :=
      Option.map_eq_some_iff.mp (Option.mem_toList.mp apart)
    obtain ⟨afterHour, hourRead, clockRuns⟩ := clock?_spec read
    have hourRuns : digitRuns afterDay = hour :: digitRuns (':' :: afterHour) := by
      rw [← digitRuns_of_run? hourRead]
      exact (digitRuns_dropWhile (by simp) afterDay).symm
    rw [Fields.Apart, dateRuns, hourRuns, digitRuns_cons_of_noDigit (by decide), clockRuns]
    rfl
  · right
    split at joined
    · rename_i long
      obtain ⟨⟨hour, minute, second, rest⟩, read, rfl⟩ :=
        Option.map_eq_some_iff.mp (Option.mem_toList.mp joined)
      obtain ⟨afterHour, hourRead, clockRuns⟩ := clock?_spec read
      obtain ⟨_, _, dayDigits, dayEnded⟩ := run?_spec (run?_of_separated? dayRead)
      have lastRead : run? (day.drop (day.length - 1) ++ afterDay) =
          some (day.drop (day.length - 1), afterDay) :=
        run?_append (by rw [ne_eq, List.drop_eq_nil_iff]; omega)
          (fun c inDay => dayDigits c (List.mem_of_mem_drop inDay)) dayEnded
      cases hourRead.symm.trans lastRead
      have whole : day.dropLast ++ day.drop (day.length - 1) = day := by
        rw [List.dropLast_eq_take, List.take_append_drop]
      refine ⟨?_, ?_, ?_, ?_⟩
      · rw [afterNumber_of_run? blankNoDigit yearRead,
          afterNumber_of_run? (fun c => noDigit_of_isSeparator) (run?_of_separated? monthRead),
          afterNumber_of_run? (fun c => noDigit_of_isSeparator) (run?_of_separated? dayRead)]
        rfl
      · rw [dateRuns, digitRuns_cons_of_noDigit (by decide), clockRuns, whole]
      · refine List.ne_nil_of_length_pos ?_
        rw [List.length_dropLast]
        omega
      · rw [List.length_drop]
        omega
    · cases joined

/-- The numbers that fields stand for, and the instant these give with a zone. -/
inductive Fields.Reads (fields : Fields) (zone : Option (List Char)) : Instant → Prop
  | mk {year month day hour minute second : Nat} {correction : Int}
      (numbers : fields.numbers.map natural? =
        [some year, some month, some day, some hour, some minute, some second])
      (valid : Date.isValid ⟨year, month, day⟩ = true)
      (corrects : zone.elim (some 0) correction? = some correction) :
      Fields.Reads fields zone (.ofClock ⟨year, month, day⟩ hour minute second correction)

private theorem shift?_eq_some {t moved : Instant} {seconds : Int}
    (shifted : t.shift? seconds = some moved) : moved = { t with seconds := t.seconds + seconds } := by
  simp only [Instant.shift?] at shifted
  split at shifted
  · cases shifted
    rfl
  · cases shifted

private theorem date_of_ofParts? {year : Int} {month day : Nat} {date : Date}
    (read : Date.ofParts? year month day = some date) :
    date = ⟨year, month, day⟩ ∧ date.isValid = true := by
  simp only [Date.ofParts?] at read
  split at read
  · rename_i inRange
    cases read
    exact ⟨rfl, (Bool.and_eq_true_iff.mp inRange).1⟩
  · cases read

theorem exists_reads_of_parse? {s : String} {t : Instant} (read : parse? s = some t) :
    ∃ fields zone, divide? s.toList = some (fields, zone) ∧ fields.Reads zone t := by
  simp only [parse?, parseChars?, Option.bind_eq_bind, Option.bind_eq_some_iff] at read
  obtain ⟨⟨fields, zone⟩, divided, time, timeRead, zoned⟩ := read
  refine ⟨fields, zone, divided, ?_⟩
  simp only [Fields.local?, Option.bind_eq_bind, Option.bind_eq_some_iff] at timeRead
  obtain ⟨year, yearRead, month, monthRead, day, dayRead, date, dateRead, hour, hourRead, minute,
    minuteRead, second, secondRead, shifted⟩ := timeRead
  obtain ⟨rfl, valid⟩ := date_of_ofParts? dateRead
  have numbers : fields.numbers.map natural? =
      [some year, some month, some day, some hour, some minute, some second] := by
    simp [Fields.numbers, yearRead, monthRead, dayRead, hourRead, minuteRead, secondRead]
  cases shift?_eq_some shifted
  cases zone with
  | none =>
      cases zoned
      have reads : fields.Reads none (.ofClock ⟨year, month, day⟩ hour minute second 0) :=
        .mk numbers valid rfl
      simpa [Instant.ofClock, Instant.midnight, Instant.ofSeconds] using reads
  | some word =>
      obtain ⟨correction, corrects, shiftedAgain⟩ := Option.bind_eq_some_iff.mp zoned
      cases shift?_eq_some shiftedAgain
      have reads : fields.Reads (some word)
          (.ofClock ⟨year, month, day⟩ hour minute second correction) :=
        .mk numbers valid corrects
      exact reads

private theorem mem_candidates_of_divide? {cs : List Char} {fields : Fields}
    {zone : Option (List Char)}
    (divided : divide? cs = some (fields, zone)) : fields ∈ candidates cs := by
  simp only [divide?, Option.or_eq_some_iff] at divided
  rcases divided with zoned | ⟨_, plain⟩
  · obtain ⟨found, member, zoneRead⟩ := List.exists_of_findSome?_eq_some zoned
    obtain ⟨word, _, same⟩ := Option.map_eq_some_iff.mp zoneRead
    cases same
    exact member
  · obtain ⟨found, isFound, same⟩ := Option.map_eq_some_iff.mp plain
    cases same
    exact List.mem_of_find?_eq_some isFound

/-- A date is read from the first six numbers of its text, all of them before the zone, unless a
colon follows the third: that one may be cut into the day and a last digit, the hour. -/
theorem numbers_of_parse? {s : String} {t : Instant} (read : parse? s = some t) :
    ∃ fields zone, divide? s.toList = some (fields, zone) ∧ fields.Reads zone t ∧
      (fields.Apart s.toList ∨ fields.Joined s.toList) := by
  obtain ⟨fields, zone, divided, reads⟩ := exists_reads_of_parse? read
  exact ⟨fields, zone, divided, reads,
    apart_or_joined_of_mem_candidates (mem_candidates_of_divide? divided)⟩

theorem numbers_of_parse?_zoned :
    let s := "1941/12/07 19:53:00Z+01+60"
    (∃ t, parse? s = some t) ∧ ∃ fields zone, divide? s.toList = some (fields, zone) ∧
      fields.Apart s.toList ∧ fields.Reads zone (.ofSeconds (-885708420)) := by
  intro s
  have read : parse? s = some (.ofSeconds (-885708420)) := by decide +kernel
  obtain ⟨fields, zone, divided, reads, numbers⟩ := numbers_of_parse? read
  have noColon : ¬(afterNumber (afterNumber (afterNumber s.toList))).head? = some ':' := by
    decide +kernel
  exact ⟨⟨_, read⟩, fields, zone, divided, numbers.resolve_right fun cut => noColon cut.colon,
    reads⟩

theorem third_number_cut :
    let s := "2000-01-0112:30:45"
    parse? s = some (.ofClock ⟨2000, 1, 11⟩ 2 30 45 0) ∧
      digitRuns s.toList = ["2000", "01", "0112", "30", "45"].map String.toList := by
  decide +kernel

end ShoreMetadata.Calendar.Profile
