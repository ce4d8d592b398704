import Mathlib.Data.List.Perm.Basic

/-! Lists in another order, in which the elements of one key still follow each other as before.
Elements without a key may stand anywhere. -/

namespace ShoreMetadata

variable {α κ : Type} {key : α → Option κ} {xs ys zs : List α}

/-- The same elements, those of each key in the same order. -/
structure Rearranged [DecidableEq κ] (key : α → Option κ) (xs ys : List α) : Prop where
  perm : xs.Perm ys
  keeps : ∀ c, (xs.filter fun x => key x = some c) = ys.filter fun x => key x = some c

def Apart (key : α → Option κ) (a b : α) : Prop :=
  ∀ c, key a = some c → key b ≠ some c

theorem Apart.of_ne {a b : α} (different : key a ≠ key b) : Apart key a b := by
  intro c own own'
  exact different (own.trans own'.symm)

namespace Rearranged

variable [DecidableEq κ]

theorem refl (xs : List α) : Rearranged key xs xs :=
  ⟨.refl xs, fun _ => rfl⟩

theorem symm (order : Rearranged key xs ys) : Rearranged key ys xs :=
  ⟨order.perm.symm, fun c => (order.keeps c).symm⟩

theorem trans (first : Rearranged key xs ys) (second : Rearranged key ys zs) :
    Rearranged key xs zs :=
  ⟨first.perm.trans second.perm, fun c => (first.keeps c).trans (second.keeps c)⟩

theorem cons (x : α) (order : Rearranged key xs ys) : Rearranged key (x :: xs) (x :: ys) := by
  refine ⟨order.perm.cons x, fun c => ?_⟩
  rw [List.filter_cons, List.filter_cons, order.keeps c]

theorem append_right (order : Rearranged key xs ys) (zs : List α) :
    Rearranged key (xs ++ zs) (ys ++ zs) := by
  refine ⟨order.perm.append_right zs, fun c => ?_⟩
  rw [List.filter_append, List.filter_append, order.keeps c]

theorem swap {a b : α} (apart : Apart key a b) (rest : List α) :
    Rearranged key (a :: b :: rest) (b :: a :: rest) := by
  refine ⟨.swap b a rest, fun c => ?_⟩
  simp only [List.filter_cons, decide_eq_true_eq]
  by_cases first : key a = some c
  · simp [first, apart c first]
  · simp [first]

theorem of_perm (distinct : (xs.filterMap key).Nodup) (perm : xs.Perm ys) :
    Rearranged key xs ys := by
  induction perm with
  | nil => exact .refl []
  | cons x _ ih =>
      refine .cons x (ih ?_)
      exact distinct.sublist ((List.sublist_cons_self x _).filterMap key)
  | swap a b rest =>
      refine .swap (fun c first second => ?_) rest
      simp [first, second] at distinct
  | trans perm _ ih₁ ih₂ =>
      exact (ih₁ distinct).trans (ih₂ ((perm.filterMap key).nodup_iff.mp distinct))

theorem isEmpty_eq (order : Rearranged key xs ys) : xs.isEmpty = ys.isEmpty :=
  order.perm.isEmpty_eq

theorem eq_singleton {x : α} (order : Rearranged key [x] ys) : ys = [x] :=
  List.perm_singleton.mp order.perm.symm

theorem filter_eq (order : Rearranged key xs ys) {p : α → Bool} {c : κ}
    (keyed : ∀ x, p x = true → key x = some c) : xs.filter p = ys.filter p := by
  have within : ∀ zs : List α, (zs.filter fun x => key x = some c).filter p = zs.filter p := by
    intro zs
    rw [List.filter_filter]
    refine List.filter_congr fun x _ => ?_
    cases picked : p x with
    | true => simp [keyed x picked]
    | false => rfl
  rw [← within xs, ← within ys, order.keeps c]

private theorem without_first {x : α} {before after : List α} (apart : ∀ b ∈ before, Apart key x b)
    (order : Rearranged key (x :: xs) (before ++ x :: after)) :
    Rearranged key xs (before ++ after) := by
  refine ⟨(order.perm.trans List.perm_middle).cons_inv, fun c => ?_⟩
  have kept := order.keeps c
  rw [List.filter_append, List.filter_cons, List.filter_cons] at kept
  rw [List.filter_append]
  by_cases keyed : key x = some c
  · have none : (before.filter fun b => key b = some c) = [] := by
      simpa using fun b member => apart b member c keyed
    simpa [keyed, none] using kept
  · simpa [keyed] using kept

private theorem exists_split {x : α} (order : Rearranged key (x :: xs) ys) :
    ∃ before after, ys = before ++ x :: after ∧ ∀ b ∈ before, Apart key x b := by
  cases keyed : key x with
  | none =>
      obtain ⟨before, after, split⟩ :=
        List.append_of_mem (order.perm.subset (List.mem_cons_self : x ∈ x :: xs))
      refine ⟨before, after, split, fun b _ c own => ?_⟩
      cases keyed.symm.trans own
  | some c =>
      have kept := order.keeps c
      rw [List.filter_cons_of_pos (by simp [keyed])] at kept
      obtain ⟨before, after, split, others, _⟩ := List.filter_eq_cons_iff.mp kept.symm
      refine ⟨before, after, split, fun b member c' own => ?_⟩
      cases keyed.symm.trans own
      simpa using others b member

end Rearranged

/-- A relation between lists that does not see the order of neighbours that are apart. -/
structure Exchanges (key : α → Option κ) (E : List α → List α → Prop) : Prop where
  nil : E [] []
  cons : ∀ {xs ys} (x : α), E xs ys → E (x :: xs) (x :: ys)
  swap : ∀ {a b} (rest : List α), Apart key a b → E (a :: b :: rest) (b :: a :: rest)
  trans : ∀ {xs ys zs}, E xs ys → E ys zs → E xs zs

namespace Exchanges

variable {E : List α → List α → Prop}

theorem refl (exchanges : Exchanges key E) (xs : List α) : E xs xs := by
  induction xs with
  | nil => exact exchanges.nil
  | cons x _ ih => exact exchanges.cons x ih

private theorem move (exchanges : Exchanges key E) {x : α} {before : List α}
    (apart : ∀ b ∈ before, Apart key x b) (after : List α) :
    E (x :: (before ++ after)) (before ++ x :: after) := by
  induction before with
  | nil => exact exchanges.refl (x :: after)
  | cons b before ih =>
      rw [List.forall_mem_cons] at apart
      have swapped := exchanges.swap (before ++ after) apart.1
      exact exchanges.trans swapped (exchanges.cons b (ih apart.2))

/-- Such a relation does not see the order at all, but for that of one key. -/
theorem of_rearranged [DecidableEq κ] (exchanges : Exchanges key E)
    (order : Rearranged key xs ys) : E xs ys := by
  induction xs generalizing ys with
  | nil =>
      rw [List.nil_perm.mp order.perm]
      exact exchanges.nil
  | cons x xs ih =>
      obtain ⟨before, after, rfl, apart⟩ := order.exists_split
      have rest := exchanges.cons x (ih (order.without_first apart))
      exact exchanges.trans rest (exchanges.move apart after)

end Exchanges

end ShoreMetadata
