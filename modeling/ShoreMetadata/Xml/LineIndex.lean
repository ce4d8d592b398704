import ShoreMetadata.Xml.Position

/-! Where the lines of a text begin, and the places of its byte offsets. -/

namespace ShoreMetadata.Xml

def lineStartsFrom (offset : Nat) : List Char → List Nat
  | [] => []
  | c :: cs =>
    let next := offset + c.utf8Size
    if c = '\n' then next :: lineStartsFrom next cs else lineStartsFrom next cs

def lineStarts (cs : List Char) : List Nat :=
  0 :: lineStartsFrom 0 cs

theorem ascending_lineStartsFrom (offset : Nat) (cs : List Char) :
    (offset :: lineStartsFrom offset cs).Pairwise (· < ·) := by
  induction cs generalizing offset with
  | nil => exact List.pairwise_singleton _ _
  | cons c cs ih =>
      have later : offset < offset + c.utf8Size := Nat.lt_add_of_pos_right c.utf8Size_pos
      have tail := ih (offset + c.utf8Size)
      have above : ∀ start ∈ lineStartsFrom (offset + c.utf8Size) cs, offset < start :=
        fun start member => Nat.lt_trans later (List.rel_of_pairwise_cons tail member)
      simp only [lineStartsFrom]
      split
      · refine List.pairwise_cons.mpr ⟨?_, tail⟩
        exact List.forall_mem_cons.mpr ⟨later, above⟩
      · exact List.pairwise_cons.mpr ⟨above, tail.of_cons⟩

/-- Where a number stands, or else where it would be put in. -/
inductive Sought where
  | found (index : Nat)
  | absent (next : Nat)

/-- Looks from one index up to another, in the half that the number can be in. -/
def search (numbers : Array Nat) (number low high : Nat) (inside : high ≤ numbers.size) :
    Sought :=
  if nonempty : low < high then
    let middle := low + (high - low) / 2
    have within : middle < high := by omega
    match compare numbers[middle] number with
    | .lt => search numbers number (middle + 1) high inside
    | .eq => .found middle
    | .gt => search numbers number low middle (Nat.le_trans (Nat.le_of_lt within) inside)
  else .absent low
termination_by high - low

def Sought.Fits (numbers : Array Nat) (number : Nat) : Sought → Prop
  | .found index => numbers[index]? = some number
  | .absent next =>
    next ≤ numbers.size ∧
      (∀ index other, next = index + 1 → numbers[index]? = some other → other < number) ∧
      ∀ other, numbers[next]? = some other → number < other

theorem fits_search {numbers : Array Nat} {number low high : Nat} {inside : high ≤ numbers.size}
    (ordered : low ≤ high)
    (below : ∀ index other, low = index + 1 → numbers[index]? = some other → other < number)
    (above : ∀ other, numbers[high]? = some other → number < other) :
    (search numbers number low high inside).Fits numbers number := by
  -- The numbers just outside the range are carried along; the order of the others is not needed.
  fun_induction search numbers number low high inside with
  | case1 low high inside nonempty middle within less ih =>
      apply ih within _ above
      intro index other next there
      cases next
      rw [Array.getElem?_eq_getElem (Nat.lt_of_lt_of_le within inside)] at there
      cases there
      exact Nat.compare_eq_lt.mp less
  | case2 low high inside nonempty middle within same =>
      rw [Sought.Fits, Array.getElem?_eq_getElem (Nat.lt_of_lt_of_le within inside),
        Nat.compare_eq_eq.mp same]
  | case3 low high inside nonempty middle within greater ih =>
      apply ih (Nat.le_add_right _ _) below
      intro other there
      rw [Array.getElem?_eq_getElem (Nat.lt_of_lt_of_le within inside)] at there
      cases there
      exact Nat.compare_eq_gt.mp greater
  | case4 low high inside nonempty =>
      obtain rfl : low = high := Nat.le_antisymm ordered (Nat.le_of_not_lt nonempty)
      exact ⟨inside, below, above⟩

def difference? (a b : Nat) : Option Nat :=
  if b ≤ a then some (a - b) else none

structure LineIndex where
  starts : Array Nat
  first : starts[0]? = some 0
  ascending : starts.toList.Pairwise (· < ·)

namespace LineIndex

def ofText (cs : List Char) : LineIndex where
  starts := (lineStarts cs).toArray
  first := rfl
  ascending := ascending_lineStartsFrom 0 cs

/-- The line that an offset is in, counted from zero. -/
def line? (index : LineIndex) (offset : Nat) : Option Nat :=
  match search index.starts offset 0 index.starts.size (Nat.le_refl _) with
  | .found line => some line
  | .absent next => difference? next 1

/-- The place of an offset, unless a difference is below zero or there is no such line. -/
def locate? (index : LineIndex) (offset : Nat) : Option Position := do
  let line ← index.line? offset
  let start ← index.starts[line]?
  let column ← difference? offset start
  return ⟨line + 1, column + 1⟩

structure InLine (index : LineIndex) (offset line start : Nat) : Prop where
  begins : index.starts[line]? = some start
  reached : start ≤ offset
  ended : ∀ next, index.starts[line + 1]? = some next → offset < next

theorem start_lt_start (index : LineIndex) {line later start next : Nat} (less : line < later)
    (begins : index.starts[line]? = some start) (follows : index.starts[later]? = some next) :
    start < next := by
  obtain ⟨_, rfl⟩ := Array.getElem?_eq_some_iff.mp begins
  obtain ⟨_, rfl⟩ := Array.getElem?_eq_some_iff.mp follows
  exact List.pairwise_iff_getElem.mp index.ascending line later _ _ less

theorem exists_inLine (index : LineIndex) (offset : Nat) :
    ∃ line start, index.line? offset = some line ∧ index.InLine offset line start := by
  have fits : (search index.starts offset 0 index.starts.size (Nat.le_refl _)).Fits
      index.starts offset :=
    fits_search (Nat.zero_le _) (by simp) (by simp)
  unfold line?
  generalize search index.starts offset 0 index.starts.size (Nat.le_refl _) = sought at fits ⊢
  cases sought with
  | found line =>
      refine ⟨line, offset, rfl, fits, Nat.le_refl _, fun next there => ?_⟩
      exact index.start_lt_start (Nat.lt_succ_self line) fits there
  | absent next =>
      obtain ⟨bounded, below, above⟩ := fits
      cases next with
      | zero => exact absurd (above 0 index.first) (Nat.not_lt_zero offset)
      | succ line =>
          have there := Array.getElem?_eq_getElem (Nat.lt_of_succ_le bounded)
          have before := below line _ rfl there
          exact ⟨line, _, rfl, there, Nat.le_of_lt before, above⟩

theorem exists_locate? (index : LineIndex) (offset : Nat) :
    ∃ line start, index.InLine offset line start ∧
      index.locate? offset = some ⟨line + 1, offset - start + 1⟩ := by
  obtain ⟨line, start, told, inLine⟩ := index.exists_inLine offset
  refine ⟨line, start, inLine, ?_⟩
  simp [locate?, told, inLine.begins, difference?, inLine.reached]

theorem isSome_locate? (index : LineIndex) (offset : Nat) :
    (index.locate? offset).isSome = true := by
  obtain ⟨line, start, -, told⟩ := index.exists_locate? offset
  rw [told]
  rfl

def locate (index : LineIndex) (offset : Nat) : Position :=
  (index.locate? offset).get (index.isSome_locate? offset)

end LineIndex

end ShoreMetadata.Xml
