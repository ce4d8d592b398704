import ShoreMetadata.Proofs.Calendar.Division

/-! Dates and zones as patterns, in which a repetition takes what it can and gives it back
character by character where the rest of the pattern does not fit. The reader finds what the
patterns capture. -/

namespace ShoreMetadata.Calendar.Profile

open Text

/-- The ways to take the start of a text, the preferred one first: what is taken and what is
left. -/
abbrev Taker := List Char → List (List Char × List Char)

namespace Taker

def one (p : Char → Bool) : Taker
  | [] => []
  | c :: cs => if p c then [([c], cs)] else []

def andThen (first second : Taker) : Taker := fun cs =>
  (first cs).flatMap fun (taken, rest) =>
    (second rest).map fun (more, rest) => (taken ++ more, rest)

def anyOf (p : Char → Bool) : Taker
  | [] => [([], [])]
  | c :: cs =>
      (if p c then (anyOf p cs).map fun (taken, rest) => (c :: taken, rest) else []) ++
        [([], c :: cs)]

def someOf (p : Char → Bool) : Taker :=
  (one p).andThen (anyOf p)

def exactly (p : Char → Bool) : Nat → Taker
  | 0 => fun cs => [([], cs)]
  | n + 1 => (one p).andThen (exactly p n)

def pairsOf (p : Char → Bool) : Taker
  | c :: d :: cs =>
      (if p c && p d then (pairsOf p cs).map fun (taken, rest) => (c :: d :: taken, rest)
        else []) ++ [([], c :: d :: cs)]
  | cs => [([], cs)]

end Taker

inductive Part
  | skip (taker : Taker)
  | group (taker : Taker)

/-- What the first way captures in which the parts take a whole text. -/
def captures? : List Part → List Char → Option (List (List Char))
  | [], cs => if cs = [] then some [] else none
  | .skip taker :: parts, cs => (taker cs).findSome? fun (_, rest) => captures? parts rest
  | .group taker :: parts, cs =>
      (taker cs).findSome? fun (taken, rest) => (captures? parts rest).map (taken :: ·)

/-! The first of the ways that can be continued. What the rest of a pattern makes of a way is
`k`. -/

namespace Taker

section

variable {α : Type} {p : Char → Bool} {k : List Char × List Char → Option α}

private theorem findSome?_one (cs : List Char) :
    (one p cs).findSome? k =
      match cs with
      | [] => none
      | c :: cs => if p c then k ([c], cs) else none := by
  cases cs with
  | nil => rfl
  | cons c cs =>
      by_cases taken : p c = true <;> simp [one, taken]

private theorem findSome?_andThen (first second : Taker) (cs : List Char) :
    (first.andThen second cs).findSome? k =
      (first cs).findSome? fun (taken, rest) =>
        (second rest).findSome? fun (more, rest) => k (taken ++ more, rest) := by
  rw [andThen]
  induction first cs with
  | nil => rfl
  | cons way ways ih =>
      rw [List.flatMap_cons, List.findSome?_append, ih, List.findSome?_map, List.findSome?_cons]
      simp only [Function.comp_def]
      cases (second way.2).findSome? fun (more, rest) => k (way.1 ++ more, rest) <;> rfl

private theorem findSome?_anyOf_cons {c : Char} (taken : p c = true) (cs : List Char) :
    (anyOf p (c :: cs)).findSome? k =
      ((anyOf p cs).findSome? fun (more, rest) => k (c :: more, rest)).or
        (k ([], c :: cs)) := by
  rw [anyOf, if_pos taken, List.findSome?_append, List.findSome?_map, List.findSome?_singleton]
  rfl

private theorem findSome?_anyOf_of_head {cs : List Char}
    (ended : ∀ c, cs.head? = some c → p c = false) :
    (anyOf p cs).findSome? k = k ([], cs) := by
  cases cs with
  | nil => simp [anyOf]
  | cons c cs => simp [anyOf, ended c rfl]

/-- A repetition gives nothing back where what follows does not fit in front of what it takes. -/
theorem findSome?_anyOf
    (refused : ∀ taken c rest, p c = true → k (taken, c :: rest) = none) (cs : List Char) :
    (anyOf p cs).findSome? k = k (cs.takeWhile p, cs.dropWhile p) := by
  induction cs generalizing k with
  | nil => simp [anyOf]
  | cons c cs ih =>
      by_cases taken : p c = true
      · rw [findSome?_anyOf_cons taken, refused [] c cs taken, Option.or_none,
          List.takeWhile_cons_of_pos taken, List.dropWhile_cons_of_pos taken]
        exact ih fun more d rest => refused (c :: more) d rest
      · simp [anyOf, taken]

/-- Where giving back one character does not help, giving back more does not. -/
theorem findSome?_anyOf_run {run rest : List Char} (taken : ∀ c ∈ run, p c = true)
    (ended : ∀ c, rest.head? = some c → p c = false)
    (hopeless : k (run.dropLast, run.drop (run.length - 1) ++ rest) = none →
      ∀ kept more, kept ++ more = run → more ≠ [] → k (kept, more ++ rest) = none) :
    (anyOf p (run ++ rest)).findSome? k =
      (k (run, rest)).or
        (if run = [] then none
          else k (run.dropLast, run.drop (run.length - 1) ++ rest)) := by
  induction run generalizing k with
  | nil => rw [List.nil_append, findSome?_anyOf_of_head ended, if_pos rfl, Option.or_none]
  | cons c run ih =>
      have first : p c = true := taken c (by simp)
      rw [List.cons_append, findSome?_anyOf_cons first, if_neg (by simp)]
      cases run with
      | nil => rw [List.nil_append, findSome?_anyOf_of_head ended]; rfl
      | cons d run =>
          have others := ih (k := fun (more, rest) => k (c :: more, rest))
            (fun e member => taken e (by simp [member]))
            fun failed kept more whole nonempty =>
              hopeless failed (c :: kept) more (by rw [List.cons_append, whole]) nonempty
          rw [if_neg (by simp)] at others
          have last : (k ((c :: d :: run).dropLast,
              (c :: d :: run).drop ((c :: d :: run).length - 1) ++ rest)).or
                (k ([], c :: (d :: run ++ rest))) =
              k ((c :: d :: run).dropLast,
                (c :: d :: run).drop ((c :: d :: run).length - 1) ++ rest) := by
            cases shorter : k ((c :: d :: run).dropLast,
                (c :: d :: run).drop ((c :: d :: run).length - 1) ++ rest) with
            | none => exact hopeless shorter [] (c :: d :: run) rfl (by simp)
            | some found => rfl
          rw [others, Option.or_assoc]
          exact congrArg _ last

private theorem findSome?_someOf_cons {c : Char} (taken : p c = true) (cs : List Char) :
    (someOf p (c :: cs)).findSome? k =
      (anyOf p cs).findSome? fun (more, rest) => k (c :: more, rest) := by
  rw [someOf, findSome?_andThen, findSome?_one]
  exact if_pos taken

private theorem someOf_eq_nil {cs : List Char} (none : cs.takeWhile p = []) : someOf p cs = [] := by
  cases cs with
  | nil => rfl
  | cons c cs =>
      by_cases taken : p c = true
      · rw [List.takeWhile_cons_of_pos taken] at none
        cases none
      · simp [someOf, andThen, one, taken]

private theorem findSome?_someOf
    (refused : ∀ taken c rest, p c = true → k (taken, c :: rest) = none) (cs : List Char) :
    (someOf p cs).findSome? k =
      if cs.takeWhile p = [] then none else k (cs.takeWhile p, cs.dropWhile p) := by
  cases cs with
  | nil => rfl
  | cons c cs =>
      by_cases taken : p c = true
      · rw [findSome?_someOf_cons taken, List.takeWhile_cons_of_pos taken,
          List.dropWhile_cons_of_pos taken, if_neg (by simp)]
        exact findSome?_anyOf (fun more d rest => refused (c :: more) d rest) cs
      · have none : (c :: cs).takeWhile p = [] := List.takeWhile_cons_of_neg taken
        rw [someOf_eq_nil none, if_pos none]
        rfl

private theorem findSome?_someOf_run {run rest : List Char} (nonempty : run ≠ [])
    (taken : ∀ c ∈ run, p c = true) (ended : ∀ c, rest.head? = some c → p c = false)
    (hopeless : k (run.dropLast, run.drop (run.length - 1) ++ rest) = none →
      ∀ kept more, kept ++ more = run → more ≠ [] → k (kept, more ++ rest) = none) :
    (someOf p (run ++ rest)).findSome? k =
      (k (run, rest)).or
        (if 2 ≤ run.length then k (run.dropLast, run.drop (run.length - 1) ++ rest)
          else none) := by
  cases run with
  | nil => contradiction
  | cons c run =>
      have first : p c = true := taken c (by simp)
      rw [List.cons_append, findSome?_someOf_cons first]
      cases run with
      | nil => rw [List.nil_append, findSome?_anyOf_of_head ended]; simp
      | cons d run =>
          have others := findSome?_anyOf_run (k := fun (more, rest) => k (c :: more, rest))
            (fun e member => taken e (by simp [member])) ended
            fun failed kept more whole nonempty =>
              hopeless failed (c :: kept) more (by rw [List.cons_append, whole]) nonempty
          rw [if_neg (by simp)] at others
          rw [others, if_pos (by simp)]
          rfl

private theorem findSome?_pairsOf (last : ∀ taken c rest, k (taken, c :: rest) = none)
    (cs : List Char) :
    (pairsOf p cs).findSome? k =
      if cs.dropWhile p = [] ∧ cs.length % 2 = 0 then k (cs, []) else none := by
  induction cs using pairsOf.induct generalizing k with
  | case1 c d cs ih =>
      by_cases both : (p c && p d) = true
      · have pair := Bool.and_eq_true_iff.mp both
        have inner := ih (k := fun (more, rest) => k (c :: d :: more, rest))
          fun more => last (c :: d :: more)
        rw [pairsOf, if_pos both, List.findSome?_append, List.findSome?_map,
          List.findSome?_singleton, last, Option.or_none, List.dropWhile_cons_of_pos pair.1,
          List.dropWhile_cons_of_pos pair.2]
        simpa [Function.comp_def, Nat.add_assoc] using inner
      · have some : (c :: d :: cs).dropWhile p ≠ [] := by
          rw [ne_eq, List.dropWhile_eq_nil_iff]
          intro all
          exact both (by rw [all c (by simp), all d (by simp)]; rfl)
        rw [pairsOf, if_neg both, List.nil_append, List.findSome?_singleton, last,
          if_neg fun whole => some whole.1]
  | case2 cs short =>
      rcases cs with _ | ⟨c, _ | ⟨d, cs⟩⟩
      · simp [pairsOf]
      · simp [pairsOf, last]
      · exact absurd rfl (short c d cs)

end

private theorem exactly_eq (p : Char → Bool) (n : Nat) (cs : List Char) :
    exactly p n cs = if n ≤ (cs.takeWhile p).length then [(cs.take n, cs.drop n)] else [] := by
  induction n generalizing cs with
  | zero => rfl
  | succ n ih =>
      cases cs with
      | nil => rfl
      | cons c cs =>
          by_cases taken : p c = true
          · simp only [exactly, andThen, one, if_pos taken, List.flatMap_cons, List.flatMap_nil,
              List.append_nil, ih, List.takeWhile_cons_of_pos taken, List.length_cons,
              Nat.add_le_add_iff_right, List.take_succ_cons, List.drop_succ_cons]
            split <;> rfl
          · simp [exactly, andThen, one, taken]

end Taker

open Taker

/-- No text that starts with one of the given characters fits. -/
def Refuses (parts : List Part) (p : Char → Bool) : Prop :=
  ∀ c cs, p c = true → captures? parts (c :: cs) = none

namespace Refuses

variable {parts : List Part} {p q : Char → Bool}

theorem nil : Refuses [] p := by
  intro c cs given
  rfl

private theorem anyOf (apart : ∀ c, p c = true → q c = false) (refuses : Refuses parts p) :
    Refuses (.skip (.anyOf q) :: parts) p := by
  intro c cs given
  simp [captures?, Taker.anyOf, apart c given, refuses c cs given]

theorem skip {taker : Taker} (stuck : ∀ c cs, p c = true → taker (c :: cs) = []) :
    Refuses (.skip taker :: parts) p := by
  intro c cs given
  rw [captures?, stuck c cs given]
  rfl

theorem group {taker : Taker} (stuck : ∀ c cs, p c = true → taker (c :: cs) = []) :
    Refuses (.group taker :: parts) p := by
  intro c cs given
  rw [captures?, stuck c cs given]
  rfl

end Refuses

theorem apart_symm {p q : Char → Bool} (apart : ∀ c, p c = true → q c = false) :
    ∀ c, q c = true → p c = false := by
  intro c holds
  by_contra given
  rw [apart c (by simpa using given)] at holds
  cases holds

private theorem one_andThen_stuck {p q : Char → Bool} {others : Taker}
    (apart : ∀ c, p c = true → q c = false) :
    ∀ c cs, p c = true → (one q).andThen others (c :: cs) = [] := by
  intro c cs given
  simp [andThen, one, apart c given]

/-! Parts of patterns, as the reader goes through them. -/

def Part.number : Part :=
  .group (someOf isScriptDigit)

def Part.separators : Part :=
  .skip (someOf isSeparator)

def Part.colon : Part :=
  .skip (one (· == ':'))

def Part.blanks : Part :=
  .skip (anyOf isBlank)

private theorem run?_eq (cs : List Char) :
    run? cs = if digitRun cs = [] then none else some (digitRun cs, afterRun cs) := by
  unfold run?
  split
  · rename_i none
    rw [if_pos none]
  · rename_i nonempty
    rw [if_neg nonempty]

private theorem separated?_eq (cs : List Char) :
    separated? cs =
      if cs.takeWhile isSeparator = [] then none else run? (cs.dropWhile isSeparator) := by
  cases cs with
  | nil => rfl
  | cons c cs =>
      by_cases separates : isSeparator c = true
      · rw [separated?, if_pos separates, List.takeWhile_cons_of_pos separates,
          List.dropWhile_cons_of_pos separates, if_neg (by simp)]
      · rw [separated?, if_neg separates, List.takeWhile_cons_of_neg separates, if_pos rfl]

private theorem digitRun_of_run? {cs : List Char} (unread : run? cs = none) : digitRun cs = [] := by
  rw [run?_eq] at unread
  by_contra nonempty
  rw [if_neg nonempty] at unread
  cases unread

section

variable {parts : List Part} (cs : List Char)

private theorem captures?_skip_anyOf {p : Char → Bool} (refuses : Refuses parts p) :
    captures? (.skip (anyOf p) :: parts) cs = captures? parts (cs.dropWhile p) := by
  rw [captures?, findSome?_anyOf fun _ c rest given => refuses c rest given]

private theorem captures?_number (refuses : Refuses parts isScriptDigit) :
    captures? (.number :: parts) cs =
      (run? cs).bind fun (run, rest) => (captures? parts rest).map (run :: ·) := by
  have refused : ∀ taken c rest, isScriptDigit c = true →
      (captures? parts (c :: rest)).map (taken :: ·) = none := by
    intro taken c rest digit
    rw [refuses c rest digit, Option.map_none]
  rw [Part.number, captures?, findSome?_someOf fun taken c rest => refused taken c rest, run?_eq]
  change (if digitRun cs = [] then none else _) = _
  split <;> rfl

private theorem refuses_number {p : Char → Bool}
    (apart : ∀ c, p c = true → isScriptDigit c = false) : Refuses (.number :: parts) p :=
  .group (one_andThen_stuck apart)

private theorem captures?_exactly {n : Nat} (refuses : Refuses parts isScriptDigit)
    (positive : 0 < n) :
    captures? (.group (exactly isScriptDigit n) :: parts) cs =
      (run? cs).bind fun (run, rest) =>
        if run.length = n then (captures? parts rest).map (run :: ·) else none := by
  rw [captures?, exactly_eq]
  rcases read : run? cs with _ | ⟨run, rest⟩
  · have none : cs.takeWhile isScriptDigit = [] := digitRun_of_run? read
    rw [none, List.length_nil, if_neg (Nat.not_le_of_lt positive)]
    rfl
  obtain ⟨rfl, nonempty, digits, ended⟩ := run?_spec read
  rw [takeWhile_append_of_head digits ended, Option.bind_some]
  dsimp only
  rcases Nat.lt_trichotomy n run.length with longer | rfl | shorter
  · obtain ⟨c, others, left⟩ : ∃ c others, run.drop n = c :: others :=
      List.exists_cons_of_ne_nil (by rw [ne_eq, List.drop_eq_nil_iff]; omega)
    have digit : isScriptDigit c = true := digits c (List.mem_of_mem_drop (by rw [left]; simp))
    rw [if_pos (Nat.le_of_lt longer), if_neg (Nat.ne_of_gt longer), List.findSome?_singleton,
      List.drop_append_of_le_length (Nat.le_of_lt longer), left, List.cons_append]
    simp only [refuses c _ digit, Option.map_none]
  · rw [if_pos (Nat.le_refl _), if_pos rfl, List.findSome?_singleton, List.take_left,
      List.drop_left]
  · rw [if_neg (Nat.not_le_of_lt shorter), if_neg (Nat.ne_of_lt shorter)]
    rfl

private theorem captures?_separators :
    captures? (.separators :: .number :: parts) cs =
      if cs.takeWhile isSeparator = [] then none
      else captures? (.number :: parts) (cs.dropWhile isSeparator) := by
  have refused : Refuses (.number :: parts) isSeparator :=
    refuses_number fun c => noDigit_of_isSeparator
  rw [Part.separators, captures?, findSome?_someOf fun _ c rest given => refused c rest given]

private theorem captures?_colon :
    captures? (.colon :: parts) cs = (colon? cs).bind (captures? parts) := by
  rw [Part.colon, captures?, findSome?_one]
  unfold colon?
  split
  · rfl
  · rename_i c cs
    by_cases same : c = ':'
    · subst same
      rfl
    · simp [same]

end

private theorem refuses_colon {parts : List Part} : Refuses (.colon :: parts) isScriptDigit := by
  refine .skip fun c cs digit => ?_
  have noColon : (c == ':') = false := by
    rw [beq_eq_false_iff_ne]
    rintro rfl
    exact absurd digit (by decide)
  simp [one, noColon]

def clockParts : List Part :=
  [.number, .colon, .number, .colon, .number]

section

variable {parts : List Part} (cs : List Char)

private theorem captures?_clock (refuses : Refuses parts isScriptDigit) :
    captures? (clockParts ++ parts) cs =
      (clock? cs).bind fun (hour, minute, second, rest) =>
        (captures? parts rest).map fun others => hour :: minute :: second :: others := by
  simp only [clockParts, List.cons_append, List.nil_append]
  rw [captures?_number _ refuses_colon, clock?]
  rcases run? cs with _ | ⟨hour, afterHour⟩
  · rfl
  simp only [Option.bind_eq_bind, Option.bind_some, captures?_colon]
  rcases colon? afterHour with _ | toMinute
  · rfl
  simp only [Option.bind_some, captures?_number _ refuses_colon]
  rcases run? toMinute with _ | ⟨minute, afterMinute⟩
  · rfl
  simp only [Option.bind_some, captures?_colon]
  rcases colon? afterMinute with _ | toSecond
  · rfl
  simp only [Option.bind_some, captures?_number _ refuses]
  rcases run? toSecond with _ | ⟨second, rest⟩
  · rfl
  simp only [Option.bind_some, Option.map_map, Option.pure_def]
  rfl

private theorem captures?_day :
    captures? (.number :: .skip (anyOf (!isScriptDigit ·)) :: (clockParts ++ parts)) cs =
      (run? cs).bind fun (day, rest) =>
        ((captures? (clockParts ++ parts) (rest.dropWhile (!isScriptDigit ·))).map (day :: ·)).or
          (if 2 ≤ day.length then
            (captures? (clockParts ++ parts) (day.drop (day.length - 1) ++ rest)).map
              (day.dropLast :: ·)
          else none) := by
  have refused : Refuses (clockParts ++ parts) (!isScriptDigit ·) := refuses_number (by simp)
  rw [Part.number, captures?]
  simp only [captures?_skip_anyOf _ refused]
  rcases read : run? cs with _ | ⟨day, rest⟩
  · rw [someOf_eq_nil (digitRun_of_run? read)]
    rfl
  obtain ⟨rfl, nonempty, digits, ended⟩ := run?_spec read
  -- However much the day gives back, the colon is looked for behind the whole run.
  have ofRun : ∀ more : List Char, more ≠ [] → (∀ c ∈ more, isScriptDigit c = true) →
      captures? (clockParts ++ parts) ((more ++ rest).dropWhile (!isScriptDigit ·)) =
        (captures? (clockParts.tail ++ parts) rest).map (more :: ·) := by
    intro more nonempty digits
    rw [dropWhile_run nonempty digits]
    refine (captures?_number _ refuses_colon).trans ?_
    rw [run?_append nonempty digits ended]
    rfl
  have lastDigits : ∀ c ∈ day.drop (day.length - 1), isScriptDigit c = true := fun c member =>
    digits c (List.mem_of_mem_drop member)
  have lastNonempty : day.drop (day.length - 1) ≠ [] := by
    have positive := List.length_pos_of_ne_nil nonempty
    rw [ne_eq, List.drop_eq_nil_iff]
    omega
  rw [findSome?_someOf_run nonempty digits ended]
  · simp only [dropWhile_run lastNonempty lastDigits, Option.bind_some]
  · intro failed kept more whole nonempty
    rw [ofRun _ lastNonempty lastDigits, Option.map_map, Option.map_eq_none_iff] at failed
    rw [ofRun _ nonempty fun c member => digits c (by rw [← whole]; simp [member]), failed]
    rfl

def stampParts : List Part :=
  [.blanks, .group (exactly isScriptDigit 4), .separators, .number, .separators, .number,
    .skip (anyOf (!isScriptDigit ·))] ++ clockParts

def Part.word : Part :=
  .group ((one fun c => !isBlank c && !isScriptDigit c).andThen (anyOf (!isBlank ·)))

def plainDate : List Part :=
  stampParts ++ [.blanks]

def zonedDate : List Part :=
  stampParts ++ [.blanks, .word, .blanks]

private theorem captures?_stamp (refuses : Refuses parts isScriptDigit) :
    captures? (stampParts ++ parts) cs =
      (candidates cs).findSome? fun fields =>
        (captures? parts fields.rest).map (fields.numbers ++ ·) := by
  have separated : ∀ parts, Refuses (.separators :: parts) isScriptDigit := fun parts =>
    .skip (one_andThen_stuck (apart_symm fun c => noDigit_of_isSeparator))
  have yearRefused : ∀ parts, Refuses (.group (exactly isScriptDigit 4) :: parts) isBlank :=
    fun parts => .group (one_andThen_stuck fun c => noDigit_of_isBlank)
  simp only [stampParts, List.cons_append, List.nil_append]
  rw [Part.blanks, captures?_skip_anyOf _ (yearRefused _),
    captures?_exactly _ (separated _) (by decide), candidates]
  rcases run? (cs.dropWhile isBlank) with _ | ⟨year, afterYear⟩
  · rfl
  by_cases four : year.length = 4
  · simp only [Option.bind_some, if_pos four, if_neg (not_not_intro four),
      captures?_separators, captures?_number _ (separated _), separated?_eq]
    by_cases noMonth : afterYear.takeWhile isSeparator = []
    · simp only [if_pos noMonth]
      rfl
    simp only [if_neg noMonth]
    rcases run? (afterYear.dropWhile isSeparator) with _ | ⟨month, afterMonth⟩
    · rfl
    simp only [Option.bind_some, captures?_day, captures?_clock _ refuses]
    by_cases noDay : afterMonth.takeWhile isSeparator = []
    · simp only [if_pos noDay]
      rfl
    simp only [if_neg noDay]
    rcases run? (afterMonth.dropWhile isSeparator) with _ | ⟨day, afterDay⟩
    · rfl
    simp only [Option.bind_some, List.findSome?_append, Option.map_or]
    congr 1
    · cases clock? (afterDay.dropWhile (!isScriptDigit ·)) with
      | none => rfl
      | some time => simp [Fields.numbers, Function.comp_def]
    · split
      · cases clock? (day.drop (day.length - 1) ++ afterDay) with
        | none => rfl
        | some time => simp [Fields.numbers, Function.comp_def]
      · rfl
  · simp [four]

private theorem captures?_blanks :
    captures? [.blanks] cs = if cs.all isBlank then some [] else none := by
  rw [Part.blanks, captures?_skip_anyOf _ .nil, captures?]
  simp only [List.dropWhile_eq_nil_iff, List.all_eq_true]

private theorem captures?_zone (fields : Fields) :
    captures? [.blanks, .word, .blanks] fields.rest = fields.zone?.map ([·]) := by
  have wordRefused : Refuses [.word, .blanks] isBlank :=
    .group (one_andThen_stuck fun c blank => by simp [blank])
  have solidRefused : Refuses [.blanks] (!isBlank ·) :=
    .anyOf (by simp) .nil
  refine (captures?_skip_anyOf _ wordRefused).trans ?_
  rw [Fields.zone?, Part.word, captures?, findSome?_andThen, findSome?_one]
  rcases rest : fields.rest.dropWhile isBlank with _ | ⟨c, cs⟩
  · rfl
  have solid : isBlank c = false := head?_dropWhile (by rw [rest]; rfl)
  by_cases digit : isScriptDigit c = true
  · simp [digit]
  · have starts : (!isBlank c && !isScriptDigit c) = true := by simp [solid, digit]
    simp only [if_pos starts, if_neg digit]
    rw [findSome?_anyOf fun more d rest given => by simp only [solidRefused d rest given,
      Option.map_none], captures?_blanks]
    split <;> rfl

private theorem divide?_captures :
    (divide? cs).map (fun (fields, zone) => fields.numbers ++ zone.toList) =
      (captures? zonedDate cs).or (captures? plainDate cs) := by
  have blanksRefused : ∀ parts, Refuses parts isScriptDigit →
      Refuses (.blanks :: parts) isScriptDigit := fun parts =>
    .anyOf (apart_symm fun c => noDigit_of_isBlank)
  have wordRefused : Refuses [.word, .blanks] isScriptDigit :=
    .group (one_andThen_stuck fun c digit => by simp [digit])
  rw [zonedDate, captures?_stamp _ (blanksRefused _ wordRefused), plainDate,
    captures?_stamp _ (blanksRefused _ .nil), divide?, Option.map_or]
  simp only [captures?_zone, captures?_blanks]
  congr 1
  · rw [List.map_findSome?]
    congr 1
    funext fields
    simp only [Function.comp_apply, Option.map_map]
    rfl
  · induction candidates cs with
    | nil => rfl
    | cons fields others ih =>
        by_cases plain : fields.endsPlainly = true
        · have blank : fields.rest.all isBlank = true := plain
          rw [List.find?_cons_of_pos plain, List.findSome?_cons, if_pos blank]
          rfl
        · have noBlank : ¬fields.rest.all isBlank = true := plain
          rw [List.find?_cons_of_neg plain, List.findSome?_cons, if_neg noBlank]
          exact ih

def instantOf? : List (List Char) → Option Instant
  | year :: month :: day :: hour :: minute :: second :: zone => do
      let time ← Fields.local? ⟨year, month, day, hour, minute, second, []⟩
      match zone.head? with
      | none => return time
      | some word => time.shift? (← correction? word)
  | _ => none

/-- What is read from a text is what the patterns capture, and nothing else of it. -/
theorem parseChars?_captures :
    parseChars? cs = ((captures? zonedDate cs).or (captures? plainDate cs)).bind instantOf? := by
  rw [← divide?_captures, parseChars?]
  rcases divide? cs with _ | ⟨fields, _ | word⟩ <;> rfl

example : captures? zonedDate "2000-01-011:02:30:45".toList =
    some (["2000", "01", "01", "1", "02", "30", ":45"].map String.toList) := by
  decide +kernel

end

def zoneParts : List Part :=
  [.skip (anyOf (!isScriptDigit ·)), .group (one isSign), .group (exactly isScriptDigit 2),
    .group (anyOf (!isScriptDigit ·)), .group (pairsOf isScriptDigit)]

/-- The minutes are the last of the pairs. -/
def Zone.ofCaptures? : List (List Char) → Option Zone
  | [[sign], hours, indicator, pairs] => some ⟨sign, hours, indicator, lastPair? pairs⟩
  | _ => none

private theorem captures?_pairs (cs : List Char) :
    captures? [.group (pairsOf isScriptDigit)] cs =
      if afterRun cs = [] ∧ cs.length % 2 = 0 then some [cs] else none := by
  rw [captures?, findSome?_pairsOf fun _ _ _ => rfl]
  rfl

private theorem captures?_marked (cs : List Char) :
    captures? [.group (anyOf (!isScriptDigit ·)), .group (pairsOf isScriptDigit)] cs =
      (captures? [.group (pairsOf isScriptDigit)] (cs.dropWhile (!isScriptDigit ·))).map
        (cs.takeWhile (!isScriptDigit ·) :: ·) := by
  have refused : Refuses [.group (pairsOf isScriptDigit)] (!isScriptDigit ·) := by
    intro c cs noDigit
    have some : afterRun (c :: cs) ≠ [] := by
      rw [afterRun, List.dropWhile_cons_of_neg (by simpa using noDigit)]
      simp
    rw [captures?_pairs, if_neg fun whole => some whole.1]
  rw [captures?, findSome?_anyOf fun taken c rest given => by
    simp only [refused c rest given, Option.map_none]]

private theorem noDigit_of_isSign {c : Char} (sign : isSign c = true) :
    isScriptDigit c = false := by
  simp only [isSign, Bool.or_eq_true, beq_iff_eq] at sign
  rcases sign with (rfl | rfl) | rfl <;> decide

private theorem captures?_signed {parts : List Part} (refuses : Refuses parts (!isScriptDigit ·))
    (cs : List Char) :
    captures? (.skip (anyOf (!isScriptDigit ·)) :: .group (one isSign) :: parts) cs =
      (cs.takeWhile (!isScriptDigit ·)).getLast?.bind fun sign =>
        if isSign sign then
          (captures? parts (cs.dropWhile (!isScriptDigit ·))).map ([sign] :: ·)
        else none := by
  have bySign : ∀ c rest, captures? (.group (one isSign) :: parts) (c :: rest) =
      if isSign c then (captures? parts rest).map ([c] :: ·) else none := by
    intro c rest
    rw [captures?, findSome?_one]
  obtain ⟨run, rest, rfl, noDigits, ended⟩ : ∃ run rest, cs = run ++ rest ∧
      (∀ c ∈ run, (!isScriptDigit c) = true) ∧
        ∀ c, rest.head? = some c → (!isScriptDigit c) = false :=
    ⟨_, _, List.takeWhile_append_dropWhile.symm,
      fun c member => List.all_eq_true.mp List.all_takeWhile c member,
      fun c head => head?_dropWhile head⟩
  have noSign : captures? (.group (one isSign) :: parts) rest = none := by
    rcases rest with _ | ⟨c, rest⟩
    · rfl
    · have digit : isScriptDigit c = true := by simpa using ended c rfl
      have noSign : isSign c = false := apart_symm (fun c => noDigit_of_isSign) c digit
      simp [bySign, noSign]
  rw [takeWhile_append_of_head noDigits ended, dropWhile_append_of_head noDigits ended, captures?]
  rcases List.eq_nil_or_concat' run with rfl | ⟨front, sign, rfl⟩
  · rw [List.nil_append, findSome?_anyOf_of_head ended]
    exact noSign
  have last : (front ++ [sign]).drop ((front ++ [sign]).length - 1) = [sign] := by simp
  rw [findSome?_anyOf_run noDigits ended]
  · simp only [last, List.singleton_append, noSign, bySign]
    simp
  · intro failed kept more whole nonempty
    simp only [last, List.singleton_append] at failed
    rcases more with _ | ⟨c, _ | ⟨d, more⟩⟩
    · contradiction
    · cases (List.append_inj' whole rfl).2
      exact failed
    · -- A sign before another character without digits has no hours after it.
      have noDigit := noDigits d (by rw [← whole]; simp)
      simp only [List.cons_append, bySign, refuses d _ noDigit, Option.map_none, ite_self]

theorem Zone.ofWord?_captures (cs : List Char) :
    Zone.ofWord? cs = (captures? zoneParts cs).bind Zone.ofCaptures? := by
  have refused : ∀ parts,
      Refuses (.group (exactly isScriptDigit 2) :: parts) (!isScriptDigit ·) := fun parts =>
    .group (one_andThen_stuck (by simp))
  rw [zoneParts, captures?_signed (refused _), Zone.ofWord?]
  rcases (cs.takeWhile (!isScriptDigit ·)).getLast? with _ | sign
  · rfl
  generalize cs.dropWhile (!isScriptDigit ·) = rest
  simp only [Option.bind_some]
  by_cases signed : isSign sign = true
  · rw [captures?, exactly_eq]
    by_cases long : 2 ≤ (rest.takeWhile isScriptDigit).length
    · have notShort : ¬(!isSign sign || decide ((digitRun rest).length < 2)) = true := by
        rw [Bool.or_eq_true, decide_eq_true_eq]
        rintro (unsigned | short)
        · simp [signed] at unsigned
        · exact absurd long (Nat.not_le_of_lt short)
      rw [if_neg notShort, if_pos long, List.findSome?_singleton, if_pos signed]
      simp only [captures?_marked, captures?_pairs]
      split <;> rfl
    · have short : (!isSign sign || decide ((digitRun rest).length < 2)) = true := by
        rw [Bool.or_eq_true, decide_eq_true_eq]
        exact .inr (Nat.lt_of_not_le long)
      rw [if_pos short, if_neg long, if_pos signed]
      rfl
  · simp [signed]

end ShoreMetadata.Calendar.Profile
