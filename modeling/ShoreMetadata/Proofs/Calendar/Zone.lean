import ShoreMetadata.Proofs.Calendar.Profile

/-! Dates with zones: texts of the documented form, and date-times of ISO 8601 with offsets. -/

namespace ShoreMetadata.Calendar.Profile

open Number Text

/-! Zones: a sign with two digits of hours, and minutes that count by a mark in front of them. -/

inductive Sign
  | plus
  | minus
deriving DecidableEq

namespace Sign

def char : Sign → Char
  | plus => '+'
  | minus => '-'

def toUtc (sign : Sign) (seconds : Nat) : Int :=
  match sign with
  | plus => -seconds
  | minus => seconds

private theorem isSign_char (sign : Sign) : isSign sign.char = true := by
  cases sign <;> rfl

theorem noDigit (sign : Sign) : isScriptDigit sign.char = false := by
  cases sign <;> decide

theorem noBlank (sign : Sign) : isBlank sign.char = false := by
  cases sign <;> decide

private theorem toUtc_bounds (sign : Sign) (seconds : Nat) :
    -(seconds : Int) ≤ sign.toUtc seconds ∧ sign.toUtc seconds ≤ seconds := by
  cases sign <;> simp only [toUtc] <;> omega

end Sign

inductive Mark
  | colon
  | signed (sign : Sign)

namespace Mark

def char : Mark → Char
  | colon => ':'
  | signed sign => sign.char

/-- After a colon the minutes are counted as the hours are. -/
def signAfter (mark : Mark) (ofHours : Sign) : Sign :=
  match mark with
  | colon => ofHours
  | signed sign => sign

theorem noDigit (mark : Mark) : isScriptDigit mark.char = false := by
  cases mark with
  | colon => decide
  | signed sign => exact sign.noDigit

theorem noBlank (mark : Mark) : isBlank mark.char = false := by
  cases mark with
  | colon => decide
  | signed sign => exact sign.noBlank

end Mark

structure Pair extends Digits where
  width_eq : chars.length = 2

private theorem Pair.value_lt (n : Pair) : n.value < 100 := by
  have bound := ofDigits_lt n.isDigit
  rw [n.width_eq] at bound
  exact bound

section

variable {lead : List Char} (leadNoDigit : ∀ c ∈ lead, isScriptDigit c = false) (sign : Sign)
  (hours : Pair)
include leadNoDigit

private theorem Zone.ofWord?_append {indicator pairs : List Char}
    (noDigit : ∀ c ∈ indicator, isScriptDigit c = false)
    (digits : ∀ c ∈ pairs, isScriptDigit c = true) (even : pairs.length % 2 = 0) :
    Zone.ofWord? (lead ++ sign.char :: (hours.chars ++ (indicator ++ pairs))) =
      some ⟨sign.char, hours.chars, indicator, lastPair? pairs⟩ := by
  have leads : ∀ d ∈ lead ++ [sign.char], (!isScriptDigit d) = true := by
    intro d member
    rcases List.mem_append.mp member with member | member
    · simp [leadNoDigit d member]
    · cases List.mem_singleton.mp member
      simp [sign.noDigit]
  have starts : ∀ d, (hours.chars ++ (indicator ++ pairs)).head? = some d →
      (!isScriptDigit d) = false := by
    intro d head
    rw [List.head?_append_of_ne_nil _ hours.ne_nil] at head
    simp [hours.isScriptDigit_of_mem d (List.mem_of_head? head)]
  have split : lead ++ sign.char :: (hours.chars ++ (indicator ++ pairs)) =
      (lead ++ [sign.char]) ++ (hours.chars ++ (indicator ++ pairs)) := by simp
  have taken : (lead ++ sign.char :: (hours.chars ++ (indicator ++ pairs))).takeWhile
      (!isScriptDigit ·) = lead ++ [sign.char] := by
    rw [split, takeWhile_append_of_head leads starts]
  have left : (lead ++ sign.char :: (hours.chars ++ (indicator ++ pairs))).dropWhile
      (!isScriptDigit ·) = hours.chars ++ (indicator ++ pairs) := by
    rw [split, dropWhile_append_of_head leads starts]
  have long : ¬(digitRun (hours.chars ++ (indicator ++ pairs))).length < 2 := by
    rw [digitRun, List.takeWhile_append_of_pos hours.isScriptDigit_of_mem, List.length_append,
      hours.width_eq]
    omega
  have others : ∀ d ∈ indicator, (!isScriptDigit d) = true := fun d member => by
    simp [noDigit d member]
  have stops : ∀ d, pairs.head? = some d → (!isScriptDigit d) = false := fun d head => by
    simp [digits d (List.mem_of_head? head)]
  have ended : afterRun pairs = [] := List.dropWhile_eq_nil_iff.mpr digits
  unfold Zone.ofWord?
  simp [taken, left, sign.isSign_char, long, List.take_left' hours.width_eq,
    List.drop_left' hours.width_eq, takeWhile_append_of_head others stops,
    dropWhile_append_of_head others stops, ended, even]

private theorem correction?_hours :
    correction? (lead ++ sign.char :: hours.chars) =
      some (sign.toUtc (3600 * hours.value)) := by
  have zone : Zone.ofWord? (lead ++ sign.char :: (hours.chars ++ ([] ++ []))) =
      some ⟨sign.char, hours.chars, [], none⟩ :=
    Zone.ofWord?_append leadNoDigit sign hours (List.forall_mem_nil _) (List.forall_mem_nil _) rfl
  rw [List.append_nil, List.append_nil] at zone
  rw [correction?, zone]
  cases sign <;>
    simp [Zone.correction?, hours.natural?_chars, Sign.char, Sign.toUtc]

omit leadNoDigit in
private theorem Zone.addsMinutes?_mark (mark : Option Mark) (minutes : Option (List Char)) :
    (⟨sign.char, hours.chars, (mark.map Mark.char).toList, minutes⟩ : Zone).addsMinutes? =
      mark.map fun mark => decide (mark.signAfter sign = .minus) := by
  rcases mark with _ | _ | own
  · rfl
  · cases sign <;> rfl
  · cases own <;> rfl

private theorem correction?_minutes (mark : Option Mark) (minutes : Pair) :
    correction? (lead ++ sign.char ::
        (hours.chars ++ ((mark.map Mark.char).toList ++ minutes.chars))) =
      some (sign.toUtc (3600 * hours.value) +
        mark.elim 0 fun mark => (mark.signAfter sign).toUtc (60 * minutes.value)) := by
  have noDigit : ∀ c ∈ (mark.map Mark.char).toList, isScriptDigit c = false := by
    intro c member
    cases mark with
    | none => cases member
    | some mark =>
        cases List.mem_singleton.mp member
        exact mark.noDigit
  have last : lastPair? minutes.chars = some minutes.chars := by
    simp [lastPair?, minutes.ne_nil, minutes.width_eq]
  have base : (if sign.char = '-' then 3600 * (hours.value : Int) else -(3600 * hours.value)) =
      sign.toUtc (3600 * hours.value) := by
    cases sign <;> simp [Sign.char, Sign.toUtc]
  rw [correction?, Zone.ofWord?_append leadNoDigit sign hours noDigit minutes.isScriptDigit_of_mem
    (by rw [minutes.width_eq]), last]
  simp only [Zone.correction?, Zone.addsMinutes?_mark, hours.natural?_chars,
    minutes.natural?_chars, Option.bind_eq_bind, Option.bind_some, base]
  cases mark with
  | none => simp
  | some mark =>
      cases counted : mark.signAfter sign with
      | plus => simp [Sign.toUtc, counted, Int.sub_eq_add_neg]
      | minus => simp [Sign.toUtc, counted]

end

/-- What may follow the seconds. Minutes need a mark in front of them to count. -/
inductive Suffix
  | absent
  | utc
  | offset (marked : Bool) (sign : Sign) (hours : Pair) (minutes : Option (Option Mark × Pair))

namespace Suffix

def chars : Suffix → List Char
  | absent => []
  | utc => ['Z']
  | offset marked sign hours minutes =>
      (if marked then ['Z'] else []) ++ sign.char :: (hours.chars ++
        minutes.elim [] fun (mark, minutes) => (mark.map Mark.char).toList ++ minutes.chars)

def correction : Suffix → Int
  | absent => 0
  | utc => 0
  | offset _ sign hours minutes =>
      sign.toUtc (3600 * hours.value) + minutes.elim 0 fun (mark, minutes) =>
        mark.elim 0 fun mark => (mark.signAfter sign).toUtc (60 * minutes.value)

variable (suffix : Suffix)

private theorem correction_bounds : -1000000 ≤ suffix.correction ∧ suffix.correction ≤ 1000000 := by
  cases suffix with
  | absent => decide
  | utc => decide
  | offset marked sign hours minutes =>
      have few := hours.value_lt
      have bounds := sign.toUtc_bounds (3600 * hours.value)
      rcases minutes with _ | ⟨_ | mark, minutes⟩
      · simp only [correction, Option.elim_none]
        omega
      · simp only [correction, Option.elim_some, Option.elim_none]
        omega
      · have fewMinutes := minutes.value_lt
        have minuteBounds := (mark.signAfter sign).toUtc_bounds (60 * minutes.value)
        simp only [correction, Option.elim_some]
        omega

private theorem correction?_chars (present : suffix.chars ≠ []) :
    correction? suffix.chars = some suffix.correction := by
  cases suffix with
  | absent => exact absurd rfl present
  | utc => decide +kernel
  | offset marked sign hours minutes =>
      have lead : ∀ c ∈ (if marked then ['Z'] else []), isScriptDigit c = false := by
        cases marked with
        | false => exact List.forall_mem_nil _
        | true => exact List.forall_mem_singleton.mpr (by decide)
      rcases minutes with _ | ⟨mark, minutes⟩
      · simpa [chars, correction] using correction?_hours lead sign hours
      · exact correction?_minutes lead sign hours mark minutes

theorem noDigit_of_head : ∀ c, suffix.chars.head? = some c → isScriptDigit c = false := by
  rcases suffix with _ | _ | ⟨_ | _, sign, hours, minutes⟩ <;> rintro c ⟨⟩
  · decide
  · exact sign.noDigit
  · decide

private theorem noBlank_of_mem : ∀ c ∈ suffix.chars, isBlank c = false := by
  have digits : ∀ n : Pair, ∀ c ∈ n.chars, isBlank c = false :=
    fun n c member => isBlank_of_isDigit (n.isDigit c member)
  have utcMark : isBlank 'Z' = false := by decide
  intro c member
  cases suffix with
  | absent => cases member
  | utc =>
      cases List.mem_singleton.mp member
      exact utcMark
  | offset marked sign hours minutes =>
      rcases List.mem_append.mp member with member | member
      · have same : c = 'Z' := by cases marked <;> simp_all
        rw [same]
        exact utcMark
      rcases List.mem_cons.mp member with rfl | member
      · exact sign.noBlank
      rcases List.mem_append.mp member with member | member
      · exact digits hours c member
      rcases minutes with _ | ⟨mark, minutes⟩
      · cases member
      rcases List.mem_append.mp member with member | member
      · obtain ⟨mark, rfl⟩ : ∃ mark : Mark, c = mark.char := by
          cases mark with
          | none => cases member
          | some mark => exact ⟨mark, List.mem_singleton.mp member⟩
        exact mark.noBlank
      · exact digits minutes c member

end Suffix

structure DateText where
  stamp : Stamp
  suffix : Suffix
  trailing : List Char
  trailing_blank : ∀ c ∈ trailing, isBlank c = true

def DateText.chars (text : DateText) : List Char :=
  text.stamp.chars ++ (text.suffix.chars ++ text.trailing)

/-- A text of the documented form stands for the time of its stamp, as far from UTC as its zone
tells, unless its month and day are no date. -/
theorem parse?_dateText (text : DateText) :
    parse? (String.ofList text.chars) =
      if text.stamp.date.isValid then some (text.stamp.instant text.suffix.correction)
      else none := by
  rw [parse?, String.toList_ofList, DateText.chars]
  by_cases present : text.suffix.chars = []
  · have utc : text.suffix.correction = 0 := by
      rcases shape : text.suffix with _ | _ | ⟨_ | _, _, _, _⟩
      · rfl
      all_goals simp [shape, Suffix.chars] at present
    rw [present, List.nil_append, utc]
    exact text.stamp.parseChars?_plain text.trailing_blank
  · exact text.stamp.parseChars?_zoned present text.suffix.noDigit_of_head
      text.suffix.noBlank_of_mem text.trailing_blank (text.suffix.correction?_chars present)
      text.suffix.correction_bounds

example : ∃ text : DateText, String.ofList text.chars = "1941-12-07T07:53:00-09:60 " ∧
    text.stamp.date.isValid = true ∧
    text.stamp.instant text.suffix.correction = .ofSeconds (-885708420) :=
  ⟨⟨.iso ⟨1941, 12, 7⟩ 7 53 0 (by decide) (by decide),
    .offset false .minus ⟨.padded 2 9, rfl⟩ (some (some .colon, ⟨.padded 2 60, rfl⟩)), [' '],
    List.forall_mem_singleton.mpr (by decide)⟩,
    by decide +kernel, by decide +kernel, by decide +kernel⟩

structure DateTime where
  date : Date
  hour : Nat
  minute : Nat
  second : Nat
  isValid : date.isValid = true
  plainYear : 0 ≤ date.year ∧ date.year ≤ 9999
  hour_lt : hour < 24
  minute_lt : minute < 60
  second_lt : second < 60

namespace DateTime

variable (time : DateTime)

def chars : List Char :=
  isoChars time.date time.hour time.minute time.second

def instant (correction : Int) : Instant :=
  .ofClock time.date time.hour time.minute time.second correction

private theorem parse?_append {word : List Char} (nonempty : word ≠ [])
    (noDigit : ∀ c, word.head? = some c → isScriptDigit c = false)
    (solid : ∀ c ∈ word, isBlank c = false) {correction : Int}
    (corrects : correction? word = some correction)
    (near : -1000000 ≤ correction ∧ correction ≤ 1000000) :
    parse? (String.ofList (time.chars ++ word)) = some (time.instant correction) := by
  have short : time.hour < 100 ∧ time.minute < 100 ∧ time.second < 100 :=
    ⟨Nat.lt_trans time.hour_lt (by decide), Nat.lt_trans time.minute_lt (by decide),
      Nat.lt_trans time.second_lt (by decide)⟩
  have read := parse?_isoChars_append time.plainYear short nonempty noDigit solid corrects near
  rw [if_pos time.isValid] at read
  exact read

end DateTime

/-- How the minutes of an offset are set off from its hours: as in `+0530` or `+05:30`. -/
inductive OffsetForm
  | basic
  | extended

structure Offset where
  sign : Sign
  hours : Pair
  minutes : Pair

namespace Offset

variable (offset : Offset)

def suffix (form : OffsetForm) : Suffix :=
  let mark := match form with
    | .basic => none
    | .extended => some .colon
  .offset false offset.sign offset.hours (some (mark, offset.minutes))

def toUtc : Int :=
  offset.sign.toUtc (3600 * offset.hours.value + 60 * offset.minutes.value)

private theorem correction_extended : (offset.suffix .extended).correction = offset.toUtc := by
  obtain ⟨sign, hours, minutes⟩ := offset
  cases sign with
  | plus =>
      simp only [suffix, toUtc, Suffix.correction, Option.elim_some, Mark.signAfter, Sign.toUtc]
      omega
  | minus =>
      simp only [suffix, toUtc, Suffix.correction, Option.elim_some, Mark.signAfter, Sign.toUtc]
      omega

private theorem correction_basic :
    (offset.suffix .basic).correction = offset.sign.toUtc (3600 * offset.hours.value) :=
  Int.add_zero _

private theorem chars_ne_nil (form : OffsetForm) : (offset.suffix form).chars ≠ [] := by
  simp [suffix, Suffix.chars]

end Offset

def pointChars (fraction : Digits) : List Char :=
  '.' :: fraction.chars

private theorem correction?_point (fraction : Digits) (others : List Char) :
    correction? (pointChars fraction ++ others) = some 0 := by
  obtain ⟨c, cs, shape, digit⟩ := fraction.exists_cons
  have script := isScriptDigit_of_isDigit digit
  have lead : (pointChars fraction ++ others).takeWhile (!isScriptDigit ·) = ['.'] := by
    rw [pointChars, shape, List.cons_append, List.takeWhile_cons_of_pos (by decide),
      List.cons_append, List.takeWhile_cons_of_neg (by simp [script])]
  have noSign : isSign '.' = false := by decide
  simp [correction?, Zone.ofWord?, lead, noSign]

/-- An offset in extended form is taken off. Of one in basic form only the hours are, and after a
fraction of a second nothing is. -/
theorem parse?_iso (time : DateTime) (offset : Offset) :
    parse? (String.ofList (time.chars ++ (offset.suffix .extended).chars)) =
        some (time.instant offset.toUtc) ∧
      parse? (String.ofList (time.chars ++ (offset.suffix .basic).chars)) =
        some (time.instant (offset.sign.toUtc (3600 * offset.hours.value))) ∧
      ∀ fraction form, parse? (String.ofList
        (time.chars ++ (pointChars fraction ++ (offset.suffix form).chars))) =
          some (time.instant 0) := by
  have whole : ∀ form, parse? (String.ofList (time.chars ++ (offset.suffix form).chars)) =
      some (time.instant (offset.suffix form).correction) := fun form =>
    time.parse?_append (offset.chars_ne_nil form) (offset.suffix form).noDigit_of_head
      (offset.suffix form).noBlank_of_mem
      ((offset.suffix form).correction?_chars (offset.chars_ne_nil form))
      (offset.suffix form).correction_bounds
  refine ⟨?_, ?_, fun fraction form => ?_⟩
  · rw [whole, offset.correction_extended]
  · rw [whole, offset.correction_basic]
  · refine time.parse?_append (by simp [pointChars]) ?_ ?_ (correction?_point fraction _)
      (by decide)
    · rintro c ⟨⟩
      decide
    · intro c member
      rcases List.mem_append.mp member with member | member
      · rcases List.mem_cons.mp member with rfl | member
        · decide
        · exact isBlank_of_isDigit (fraction.isDigit c member)
      · exact (offset.suffix form).noBlank_of_mem c member

theorem iso_offset_dropped :
    let ten := Instant.ofClock ⟨2000, 1, 1⟩ 10 0 0
    parse? "2000-01-01T10:00:00+0230" = some (ten (-7200)) ∧ ten (-7200) ≠ ten (-9000) ∧
      parse? "2000-01-01T10:00:00.5+02:00" = some (ten 0) ∧ ten 0 ≠ ten (-7200) := by
  decide +kernel

end ShoreMetadata.Calendar.Profile
