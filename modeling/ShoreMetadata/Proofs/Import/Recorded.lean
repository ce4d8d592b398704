import ShoreMetadata.Import.Recorded

/-! Computations and their outcomes. -/

namespace ShoreMetadata.Recorded

/-- If there is a value, it is as wanted, whatever was noted on the way. -/
def Yields (P : α → Prop) (x : Recorded α) : Prop :=
  ∀ a, x.result = .ok a → P a

/-- Nothing is noted, and the outcome is a value as wanted or an allowed failure. -/
def Settles (allowed : Error → Prop) (P : α → Prop) (x : Recorded α) : Prop :=
  (∃ a, x = .ok a ∧ P a) ∨ ∃ e, x = .fail e ∧ allowed e

theorem bind_ok (a : α) (next : α → Recorded β) : (.ok a : Recorded α) >>= next = next a := rfl

theorem pure_eq_ok (a : α) : (pure a : Recorded α) = .ok a := rfl

theorem bind_assoc (x : Recorded α) (next : α → Recorded β) (last : β → Recorded γ) :
    x >>= next >>= last = x >>= fun a => next a >>= last := by
  obtain ⟨problems, result⟩ := x
  cases result with
  | error e => rfl
  | ok a =>
      change (⟨problems ++ (next a).problems, (next a).result⟩ : Recorded β) >>= last =
        ⟨problems ++ (next a >>= last).problems, (next a >>= last).result⟩
      generalize next a = y
      obtain ⟨more, result⟩ := y
      cases result with
      | error e => rfl
      | ok b => exact congrArg (Recorded.mk · _) (List.append_assoc problems more _)

theorem ofExcept_eq_ok {result : Except Error α} {a : α} :
    Recorded.ofExcept result = .ok a ↔ result = .ok a := by
  simp [ofExcept, ok]

theorem exists_of_isOk {result : Except Error α} (ended : result.isOk = true) :
    ∃ a, result = .ok a := by
  cases result with
  | error e => cases ended
  | ok a => exact ⟨a, rfl⟩

theorem exists_of_any {ε : Type} {result : Except ε α} {P : α → Prop} [DecidablePred P]
    (holds : result.toOption.any (fun a => decide (P a)) = true) : ∃ a, result = .ok a ∧ P a := by
  cases result with
  | error e => cases holds
  | ok a => exact ⟨a, rfl, of_decide_eq_true holds⟩

theorem exists_of_not_isOk {result : Except Error α} (failed : result.isOk = false) :
    ∃ e, result = .error e := by
  cases result with
  | error e => exact ⟨e, rfl⟩
  | ok a => cases failed

theorem ofExcept_bind (first : Except Error α) (next : α → Except Error β) :
    Recorded.ofExcept (first >>= next) =
      Recorded.ofExcept first >>= fun a => Recorded.ofExcept (next a) := by
  cases first <;> rfl

theorem result_bind_eq_ok {x : Recorded α} {next : α → Recorded β} {b : β} :
    (x >>= next).result = .ok b ↔ ∃ a, x.result = .ok a ∧ (next a).result = .ok b := by
  obtain ⟨problems, result⟩ := x
  cases result with
  | error e =>
      refine iff_of_false (fun ended => ?_) fun ⟨a, ended, _⟩ => ?_
      · cases ended
      · cases ended
  | ok a =>
      constructor
      · intro ended
        exact ⟨a, rfl, ended⟩
      · rintro ⟨_, ⟨⟩, ended⟩
        exact ended

theorem bind_eq_ok {x : Recorded α} {next : α → Recorded β} {b : β} :
    x >>= next = .ok b ↔ ∃ a, x = .ok a ∧ next a = .ok b := by
  constructor
  · intro ended
    obtain ⟨problems, result⟩ := x
    cases result with
    | error e => cases ended
    | ok a =>
        refine ⟨a, ?_⟩
        change (⟨problems ++ (next a).problems, (next a).result⟩ : Recorded β) =
          ⟨[], .ok b⟩ at ended
        rw [mk.injEq, List.append_eq_nil_iff] at ended
        obtain ⟨⟨rfl, silent⟩, value⟩ := ended
        have shape : next a = ⟨(next a).problems, (next a).result⟩ := rfl
        rw [silent, value] at shape
        exact ⟨rfl, shape⟩
  · rintro ⟨a, rfl, ended⟩
    exact ended

/-- What a run does that refuses more than another: either the same, with nothing noted, or it
fails for a reason of its own. -/
def Tightens (own : Error → Prop) (x y : Recorded α) : Prop :=
  (x = y ∧ y.problems = []) ∨ ∃ e, x = .fail e ∧ own e

namespace Tightens

variable {own : Error → Prop} {x y : Recorded α}

theorem same (silent : x.problems = []) : Tightens own x x :=
  .inl ⟨rfl, silent⟩

theorem refuse {e : Error} (reason : own e) : Tightens own (.fail e) y :=
  .inr ⟨e, rfl, reason⟩

theorem bind {next next' : α → Recorded β} (first : Tightens own x y)
    (then_ : ∀ a, Tightens own (next a) (next' a)) :
    Tightens own (x >>= next) (y >>= next') := by
  rcases first with ⟨rfl, silent⟩ | ⟨e, rfl, reason⟩
  · obtain ⟨problems, result⟩ := x
    change problems = [] at silent
    subst silent
    cases result with
    | error e => exact .same rfl
    | ok a => exact then_ a
  · exact .refuse reason

theorem of_ok (tightens : Tightens own x y) {a : α} (ended : x.result = .ok a) : y = .ok a := by
  rcases tightens with ⟨rfl, silent⟩ | ⟨e, rfl, _⟩
  · obtain ⟨problems, result⟩ := x
    change problems = [] at silent
    change result = .ok a at ended
    rw [silent, ended]
    rfl
  · cases ended

theorem problems_eq (tightens : Tightens own x y) : x.problems = [] := by
  rcases tightens with ⟨rfl, silent⟩ | ⟨e, rfl, _⟩
  · exact silent
  · rfl

theorem of_error (tightens : Tightens own x y) {e : Error} (failed : x.result = .error e) :
    y.result = .error e ∨ own e := by
  rcases tightens with ⟨rfl, _⟩ | ⟨e, rfl, reason⟩
  · exact .inl failed
  · cases failed
    exact .inr reason

end Tightens

/-- The outcome is the first of some faults, or a value if there is none. -/
def Meets (faults : List Error) (x : Recorded α) : Prop :=
  match faults with
  | [] => ∃ a, x.result = .ok a
  | fault :: _ => x.result = .error fault

namespace Meets

variable {faults more : List Error} {x : Recorded α} {next : α → Recorded β}

theorem ok (a : α) : Meets [] (.ok a) :=
  ⟨a, rfl⟩

theorem bind (first : Meets faults x) (then_ : ∀ a, Meets more (next a)) :
    Meets (faults ++ more) (x >>= next) := by
  obtain ⟨problems, result⟩ := x
  cases faults with
  | nil =>
      obtain ⟨a, ended⟩ := first
      change result = .ok a at ended
      subst ended
      exact then_ a
  | cons fault others =>
      change result = .error fault at first
      subst first
      rfl

theorem bind_nil (first : Meets faults x) (then_ : ∀ a, Meets [] (next a)) :
    Meets faults (x >>= next) := by
  rw [← List.append_nil faults]
  exact first.bind then_

theorem exists_ok_iff (meets : Meets faults x) : (∃ a, x.result = .ok a) ↔ faults = [] := by
  cases faults with
  | nil => exact iff_of_true meets rfl
  | cons fault others =>
      refine iff_of_false (fun ⟨a, ended⟩ => ?_) (List.cons_ne_nil fault others)
      cases ended.symm.trans meets

theorem error_iff (meets : Meets faults x) {e : Error} :
    x.result = .error e ↔ faults.head? = some e := by
  cases faults with
  | nil =>
      obtain ⟨a, ended⟩ := meets
      simp [ended]
  | cons fault others =>
      have failed : x.result = .error fault := meets
      simp [failed]

end Meets

/-- Two runs have related values with equally many problems, or both fail. -/
inductive Agree (R : α → β → Prop) : Recorded α → Recorded β → Prop
  | value {problems problems' : List Problem} {a : α} {b : β}
      (equallyMany : problems.length = problems'.length) (related : R a b) :
      Agree R ⟨problems, .ok a⟩ ⟨problems', .ok b⟩
  | failure (problems problems' : List Problem) (e e' : Error) :
      Agree R ⟨problems, .error e⟩ ⟨problems', .error e'⟩

namespace Agree

variable {γ δ : Type} {R : α → β → Prop} {S : γ → δ → Prop} {T : α → α → Prop}

theorem ok {a : α} {b : β} (related : R a b) : Agree R (.ok a) (.ok b) :=
  .value rfl related

theorem fail (e e' : Error) : Agree R (.fail e) (.fail e') :=
  .failure [] [] e e'

theorem note (problem problem' : Problem) : Agree Eq (.note problem) (.note problem') :=
  .value rfl rfl

theorem ofExcept {first second : Except Error α} (alike : first.toOption = second.toOption) :
    Agree Eq (.ofExcept first) (.ofExcept second) := by
  cases first with
  | error e =>
      cases second with
      | error e' => exact .fail e e'
      | ok b => cases alike
  | ok a =>
      cases second with
      | error e' => cases alike
      | ok b =>
          cases alike
          exact .ok rfl

theorem toOption_eq {first second : Except Error α}
    (agree : Agree Eq (.ofExcept first) (.ofExcept second)) : first.toOption = second.toOption := by
  cases first with
  | error e =>
      cases second with
      | error e' => rfl
      | ok b => cases agree
  | ok a =>
      cases second with
      | error e' => cases agree
      | ok b =>
          cases agree with
          | value _ related => exact congrArg some related

theorem bind {x : Recorded α} {y : Recorded β} {next : α → Recorded γ} {next' : β → Recorded δ}
    (first : Agree R x y) (then_ : ∀ a b, R a b → Agree S (next a) (next' b)) :
    Agree S (x >>= next) (y >>= next') := by
  cases first with
  | failure problems problems' e e' => exact .failure problems problems' e e'
  | @value problems problems' a b equallyMany related =>
      have second := then_ a b related
      change Agree S ⟨problems ++ (next a).problems, (next a).result⟩
        ⟨problems' ++ (next' b).problems, (next' b).result⟩
      generalize next a = z at second ⊢
      generalize next' b = w at second ⊢
      cases second with
      | failure => exact .failure _ _ _ _
      | value more relatedToo =>
          apply Agree.value _ relatedToo
          rw [List.length_append, List.length_append, equallyMany, more]

theorem refl (related : ∀ a, T a a) (x : Recorded α) : Agree T x x := by
  obtain ⟨problems, result⟩ := x
  cases result with
  | error e => exact .failure problems problems e e
  | ok a => exact .value rfl (related a)

theorem trans {x : Recorded α} {y : Recorded β} {z : Recorded γ} {U : β → γ → Prop}
    {V : α → γ → Prop} (first : Agree R x y) (second : Agree U y z)
    (both : ∀ a b c, R a b → U b c → V a c) : Agree V x z := by
  cases first with
  | failure problems problems' e e' =>
      cases second
      exact .failure _ _ _ _
  | value equallyMany related =>
      cases second with
      | value equallyMany' related' =>
          exact .value (equallyMany.trans equallyMany') (both _ _ _ related related')

theorem exchange {x : Recorded α} {y : Recorded β} {next : α → β → Recorded γ}
    {next' : β → α → Recorded δ}
    (then_ : ∀ a b, x.result = .ok a → y.result = .ok b → Agree S (next a b) (next' b a)) :
    Agree S (x >>= fun a => y >>= next a) (y >>= fun b => x >>= next' b) := by
  obtain ⟨problems, result⟩ := x
  obtain ⟨problems', result'⟩ := y
  cases result with
  | error e =>
      cases result' with
      | error e' => exact .failure _ _ _ _
      | ok b => exact .failure _ _ _ _
  | ok a =>
      cases result' with
      | error e' => exact .failure _ _ _ _
      | ok b =>
          have ended := then_ a b rfl rfl
          change Agree S
            ⟨problems ++ (problems' ++ (next a b).problems), (next a b).result⟩
            ⟨problems' ++ (problems ++ (next' b a).problems), (next' b a).result⟩
          generalize next a b = z at ended ⊢
          generalize next' b a = w at ended ⊢
          cases ended with
          | failure => exact .failure _ _ _ _
          | value equallyMany related =>
              apply Agree.value _ related
              simp only [List.length_append, equallyMany]
              omega

theorem bind_eq {x y : Recorded α} {next : α → Recorded γ} {next' : α → Recorded δ}
    (first : Agree Eq x y) (then_ : ∀ a, Agree S (next a) (next' a)) :
    Agree S (x >>= next) (y >>= next') := by
  apply first.bind
  rintro a _ rfl
  exact then_ a

end Agree

namespace Yields

variable {P : α → Prop} {Q : β → Prop} {x : Recorded α}

theorem ok {a : α} (h : P a) : Yields P (.ok a) := by
  rintro b ⟨⟩
  exact h

theorem fail (e : Error) : Yields P (.fail e) := by
  rintro b ⟨⟩

theorem bind {next : α → Recorded β} (first : Yields P x)
    (then_ : ∀ a, P a → Yields Q (next a)) : Yields Q (x >>= next) := by
  intro b ended
  obtain ⟨a, started, ended⟩ := result_bind_eq_ok.mp ended
  exact then_ a (first a started) b ended

end Yields

namespace Settles

variable {allowed : Error → Prop} {P : α → Prop} {Q : β → Prop} {x : Recorded α}

theorem ok {a : α} (h : P a) : Settles allowed P (.ok a) :=
  .inl ⟨a, rfl, h⟩

theorem fail {e : Error} (h : allowed e) : Settles allowed P (.fail e) :=
  .inr ⟨e, rfl, h⟩

theorem bind {next : α → Recorded β} (first : Settles allowed P x)
    (then_ : ∀ a, P a → Settles allowed Q (next a)) : Settles allowed Q (x >>= next) := by
  rcases first with ⟨a, rfl, h⟩ | ⟨e, rfl, h⟩
  · exact then_ a h
  · exact fail h

theorem exists_ok (settles : Settles (fun _ => False) P x) : ∃ a, x = .ok a ∧ P a := by
  rcases settles with found | ⟨_, _, impossible⟩
  · exact found
  · contradiction

end Settles

end ShoreMetadata.Recorded
