import Mathlib.Data.List.DropRight
import ShoreMetadata.Text.Blank

/-! What trimming leaves, and which texts it leaves alone. -/

namespace ShoreMetadata.Text

theorem dropTrailing_eq_rdropWhile (p : Char → Bool) (cs : List Char) :
    dropTrailing p cs = cs.rdropWhile p := rfl

theorem dropTrailing_of_getLast {p : Char → Bool} {cs : List Char}
    (last : ∀ c, cs.getLast? = some c → p c = false) :
    dropTrailing p cs = cs := by
  rw [dropTrailing_eq_rdropWhile, List.rdropWhile_eq_self_iff]
  intro nonempty
  simp [last _ (List.getLast?_eq_some_getLast nonempty)]

theorem dropTrailing_append {p : Char → Bool} (cs : List Char) {blanks : List Char}
    (all : ∀ c ∈ blanks, p c = true) :
    dropTrailing p (cs ++ blanks) = dropTrailing p cs := by
  unfold dropTrailing
  rw [List.reverse_append, List.dropWhile_append_of_pos]
  simpa using all

private theorem getLast?_dropTrailing {p : Char → Bool} {cs : List Char} {c : Char}
    (last : (dropTrailing p cs).getLast? = some c) : p c = false := by
  rw [dropTrailing_eq_rdropWhile] at last
  cases shape : cs.rdropWhile p with
  | nil => simp [shape] at last
  | cons first rest =>
      have nonempty : cs.rdropWhile p ≠ [] := by simp [shape]
      have kept := List.rdropWhile_last_not p cs nonempty
      rw [List.getLast?_eq_some_getLast nonempty] at last
      cases last
      simpa using kept

theorem head?_dropWhile {p : Char → Bool} {cs : List Char} {c : Char}
    (first : (cs.dropWhile p).head? = some c) : p c = false := by
  have kept := List.head?_dropWhile_not p cs
  rw [first] at kept
  simpa using kept

theorem dropWhile_of_head {p : Char → Bool} {cs : List Char}
    (first : ∀ c, cs.head? = some c → p c = false) : cs.dropWhile p = cs := by
  cases cs with
  | nil => rfl
  | cons c rest => simp [first c rfl]

theorem takeWhile_append_of_head {p : Char → Bool} {run rest : List Char}
    (all : ∀ c ∈ run, p c = true) (ended : ∀ c, rest.head? = some c → p c = false) :
    (run ++ rest).takeWhile p = run := by
  rw [List.takeWhile_append_of_pos all]
  cases rest with
  | nil => simp
  | cons c rest => simp [ended c rfl]

theorem dropWhile_append_of_head {p : Char → Bool} {run rest : List Char}
    (all : ∀ c ∈ run, p c = true) (ended : ∀ c, rest.head? = some c → p c = false) :
    (run ++ rest).dropWhile p = rest := by
  rw [List.dropWhile_append_of_pos all]
  exact dropWhile_of_head ended

theorem head?_trimBy {p : Char → Bool} {cs : List Char} {c : Char}
    (first : (trimBy p cs).head? = some c) : p c = false := by
  unfold trimBy at first
  rw [dropTrailing_eq_rdropWhile] at first
  obtain ⟨blanks, whole⟩ : (cs.dropWhile p).rdropWhile p <+: cs.dropWhile p :=
    List.rdropWhile_prefix p _
  have firstLeft : (cs.dropWhile p).head? = some c := by
    rw [← whole, List.head?_append, first]
    rfl
  exact head?_dropWhile firstLeft

theorem getLast?_trimBy {p : Char → Bool} {cs : List Char} {c : Char}
    (last : (trimBy p cs).getLast? = some c) : p c = false :=
  getLast?_dropTrailing last

private theorem trimBy_of_ends {p : Char → Bool} {cs : List Char}
    (first : ∀ c, cs.head? = some c → p c = false)
    (last : ∀ c, cs.getLast? = some c → p c = false) : trimBy p cs = cs := by
  rw [trimBy, dropWhile_of_head first, dropTrailing_of_getLast last]

theorem trimBy_trimBy (p : Char → Bool) (cs : List Char) :
    trimBy p (trimBy p cs) = trimBy p cs :=
  trimBy_of_ends (fun _ => head?_trimBy) fun _ => getLast?_trimBy

theorem trimBy_of_forall {p : Char → Bool} {cs : List Char}
    (kept : ∀ c ∈ cs, p c = false) : trimBy p cs = cs :=
  trimBy_of_ends (fun c first => kept c (List.mem_of_head? first))
    fun c last => kept c (List.mem_of_getLast? last)

theorem trimBy_eq_nil_iff {p : Char → Bool} {cs : List Char} :
    trimBy p cs = [] ↔ ∀ c ∈ cs, p c = true := by
  rw [trimBy, dropTrailing_eq_rdropWhile, List.rdropWhile_eq_nil_iff]
  constructor
  · intro blank
    have nothing : cs.dropWhile p = [] := by
      cases shape : cs.dropWhile p with
      | nil => rfl
      | cons c rest =>
          have first : (cs.dropWhile p).head? = some c := by rw [shape]; rfl
          have kept : p c = false := head?_dropWhile first
          have dropped : p c = true := blank c (by simp [shape])
          simp [kept] at dropped
    exact List.dropWhile_eq_nil_iff.mp nothing
  · intro blank
    rw [List.dropWhile_eq_nil_iff.mpr blank]
    simp

@[simp] theorem trim_trim (s : String) : trim (trim s) = trim s := by
  simp [trim, trimBy_trimBy]

theorem isBlankText_iff_trim {s : String} : isBlankText s = true ↔ trim s = "" := by
  unfold isBlankText trim
  rw [List.all_eq_true, ← trimBy_eq_nil_iff, String.ofList_eq_empty_iff]

end ShoreMetadata.Text
