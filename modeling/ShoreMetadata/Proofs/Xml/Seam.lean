import ShoreMetadata.Proofs.Xml.Reference

/-! A text taken apart at a place inside it, where no reference is cut. Its parts resolve to the
parts of what it resolves to, apart from the blanks around the place. -/

namespace ShoreMetadata.Xml

open Text

private theorem referenced_eq_ok {start : Nat} {name : List Char} {c : Char}
    (resolved : referenced start name = .ok c) (start' : Nat) :
    referenced start' name = .ok c := by
  unfold referenced at resolved ⊢
  split at resolved
  · exact resolved
  · split at resolved
    · exact resolved
    · cases resolved

inductive Resolves : List Char → List Char → Prop
  | nil : Resolves [] []
  | plain {c : Char} {cs told : List Char} (noReference : c ≠ '&') (rest : Resolves cs told) :
      Resolves (c :: cs) (c :: told)
  | reference {name cs told : List Char} {c : Char} (named : name.all (!endsName ·) = true)
      (resolved : ∀ start, referenced start name = .ok c) (rest : Resolves cs told) :
      Resolves ('&' :: name ++ ';' :: cs) (c :: told)

private theorem bind_cons_eq_ok {x : Except ReferenceFault (List Char)} {c : Char}
    {told : List Char} (succeeded : (x >>= fun more => pure (c :: more)) = Except.ok told) :
    ∃ more, x = .ok more ∧ told = c :: more := by
  cases x with
  | error fault => cases succeeded
  | ok more =>
      cases succeeded
      exact ⟨more, rfl, rfl⟩

private theorem resolves_of_unescapeFrom {total offset : Nat} {cs told : List Char}
    (succeeded : unescapeFrom total offset cs = .ok told) : Resolves cs told := by
  fun_induction unescapeFrom total offset cs generalizing told with
  | case1 offset =>
      cases succeeded
      exact .nil
  | case2 offset rest name after ended =>
      rename_i ih
      cases named : referenced (offset + 1) name with
      | error fault =>
          rw [named] at succeeded
          cases succeeded
      | ok c =>
          rw [named] at succeeded
          obtain ⟨more, inside, rfl⟩ := bind_cons_eq_ok succeeded
          have whole : name ++ ';' :: after = rest := by
            rw [← ended]
            exact List.takeWhile_append_dropWhile
          rw [← whole]
          exact .reference (List.all_eq_true.mpr fun d => List.mem_takeWhile_imp)
            (referenced_eq_ok named) (ih inside)
  | case3 offset rest unended => cases succeeded
  | case4 offset c rest plain ih =>
      obtain ⟨more, inside, rfl⟩ := bind_cons_eq_ok succeeded
      exact .plain plain (ih inside)

private theorem resolves_iff {cs told : List Char} : unescape cs = .ok told ↔ Resolves cs told := by
  constructor
  · exact resolves_of_unescapeFrom
  · intro resolves
    suffices anywhere : ∀ total offset, unescapeFrom total offset cs = .ok told from
      anywhere _ _
    induction resolves with
    | nil =>
        intro total offset
        rw [unescapeFrom]
    | plain noReference _ ih =>
        intro total offset
        rw [unescapeFrom_plain noReference, ih]
        rfl
    | reference named resolved _ ih =>
        intro total offset
        rw [unescapeFrom_reference total offset _ _ named resolved, ih]
        rfl

def ReferencesEnd (cs : List Char) : Prop :=
  ∀ name, '&' :: name <:+ cs → ';' ∈ name

theorem ReferencesEnd.suffix {cs rest : List Char} (ends : ReferencesEnd cs)
    (suffix : rest <:+ cs) : ReferencesEnd rest :=
  fun name inside => ends name (inside.trans suffix)

theorem referencesEnd_of_plain {cs : List Char} (plain : '&' ∉ cs) : ReferencesEnd cs :=
  fun _ inside => absurd (inside.subset (List.mem_cons_self ..)) plain

private theorem referencesEnd_of_blank {blanks : List Char}
    (blank : ∀ c ∈ blanks, isXmlBlank c = true) : ReferencesEnd blanks :=
  referencesEnd_of_plain fun member => absurd (blank '&' member) (by decide)

theorem ReferencesEnd.trimBy {cs : List Char} (ends : ReferencesEnd cs) :
    ReferencesEnd (Text.trimBy isXmlBlank cs) := by
  intro name inside
  have whole : Text.trimBy isXmlBlank cs ++ (cs.dropWhile isXmlBlank).rtakeWhile isXmlBlank =
      cs.dropWhile isXmlBlank := List.rdropWhile_append_rtakeWhile
  obtain ⟨before, trimmed⟩ := inside
  have behind : '&' :: (name ++ (cs.dropWhile isXmlBlank).rtakeWhile isXmlBlank) <:+ cs := by
    refine List.IsSuffix.trans ⟨before, ?_⟩ (List.dropWhile_suffix isXmlBlank)
    rw [← List.cons_append, ← List.append_assoc, trimmed]
    exact whole
  have member := ends _ behind
  rw [List.mem_append] at member
  rcases member with member | member
  · exact member
  · exact absurd (List.mem_rtakeWhile_imp member) (by decide)

namespace Resolves

private theorem of_blank {blanks : List Char} (blank : ∀ c ∈ blanks, isXmlBlank c = true) :
    Resolves blanks blanks := by
  induction blanks with
  | nil => exact .nil
  | cons c rest ih =>
      rw [List.forall_mem_cons] at blank
      refine .plain ?_ (ih blank.2)
      rintro rfl
      exact absurd blank.1 (by decide)

theorem split {u v told : List Char} (ends : ReferencesEnd u) (resolves : Resolves (u ++ v) told) :
    ∃ first second, told = first ++ second ∧ Resolves u first ∧ Resolves v second := by
  generalize whole : u ++ v = cs at resolves
  induction resolves generalizing u with
  | nil =>
      obtain ⟨rfl, rfl⟩ := List.append_eq_nil_iff.mp whole
      exact ⟨[], [], rfl, .nil, .nil⟩
  | @plain c cs told noReference rest ih =>
      cases u with
      | nil =>
          rw [List.nil_append] at whole
          exact ⟨[], _, rfl, .nil, whole ▸ .plain noReference rest⟩
      | cons d u =>
          rw [List.cons_append, List.cons.injEq] at whole
          obtain ⟨rfl, whole⟩ := whole
          obtain ⟨first, second, rfl, front, behind⟩ :=
            ih (ends.suffix (List.suffix_cons d u)) whole
          exact ⟨d :: first, second, rfl, .plain noReference front, behind⟩
  | @reference name cs told c named resolved rest ih =>
      cases u with
      | nil =>
          rw [List.nil_append] at whole
          exact ⟨[], _, rfl, .nil, whole ▸ .reference named resolved rest⟩
      | cons d u =>
          rw [List.cons_append, List.cons_append, List.cons.injEq] at whole
          obtain ⟨rfl, whole⟩ := whole
          have semicolon : ';' ∈ u := ends u (List.suffix_refl _)
          have unnamed : ';' ∉ name := fun member => by
            simpa [endsName] using List.all_eq_true.mp named _ member
          -- The semicolon that ends the reference is in the first part.
          obtain ⟨left, rfl, whole⟩ | ⟨left, rfl, -⟩ := List.append_eq_append_iff.mp whole
          · exact absurd (List.mem_append_left _ semicolon) unnamed
          · cases left with
            | nil =>
                rw [List.append_nil] at semicolon
                exact absurd semicolon unnamed
            | cons e left =>
                rw [List.append_assoc, List.append_cancel_left_eq, List.cons_append,
                  List.cons.injEq] at whole
                obtain ⟨rfl, rfl⟩ := whole
                have behindName : left <:+ '&' :: (name ++ ';' :: left) :=
                  ⟨'&' :: (name ++ [';']), by simp⟩
                obtain ⟨first, second, rfl, front, behind⟩ :=
                  ih (ends.suffix behindName) rfl
                exact ⟨c :: first, second, rfl, .reference named resolved front, behind⟩

end Resolves

/-! Trimming both parts loses the blanks between them. -/

/-- The blanks around the place between two texts that are both more than blanks. -/
def seam (u v : List Char) : List Char :=
  if u.all isXmlBlank || v.all isXmlBlank then []
  else u.rtakeWhile isXmlBlank ++ v.takeWhile isXmlBlank

theorem isXmlBlank_of_mem_seam {u v : List Char} {c : Char} (member : c ∈ seam u v) :
    isXmlBlank c = true := by
  unfold seam at member
  split at member
  · cases member
  · rw [List.mem_append] at member
    rcases member with member | member
    · exact List.mem_rtakeWhile_imp member
    · exact List.mem_takeWhile_imp member

section

variable {p : Char → Bool} {u v : List Char}

theorem dropWhile_append_of_kept (kept : ¬∀ c ∈ u, p c = true) :
    (u ++ v).dropWhile p = u.dropWhile p ++ v := by
  have some : u.dropWhile p ≠ [] := fun none => kept (List.dropWhile_eq_nil_iff.mp none)
  rw [List.dropWhile_append, if_neg (by simpa using some)]

private theorem dropTrailing_append_of_kept (kept : ¬∀ c ∈ v, p c = true) :
    dropTrailing p (u ++ v) = u ++ dropTrailing p v := by
  unfold dropTrailing
  rw [List.reverse_append, dropWhile_append_of_kept (by simpa using kept), List.reverse_append,
    List.reverse_reverse]

private theorem rtakeWhile_append_of_kept (kept : ¬∀ c ∈ v, p c = true) :
    (u ++ v).rtakeWhile p = v.rtakeWhile p := by
  have whole : dropTrailing p (u ++ v) ++ (u ++ v).rtakeWhile p =
      dropTrailing p (u ++ v) ++ v.rtakeWhile p := by
    rw [dropTrailing_eq_rdropWhile, List.rdropWhile_append_rtakeWhile,
      ← dropTrailing_eq_rdropWhile, dropTrailing_append_of_kept kept, List.append_assoc,
      dropTrailing_eq_rdropWhile, List.rdropWhile_append_rtakeWhile]
  exact List.append_cancel_left whole

private theorem dropWhile_kept (kept : ¬∀ c ∈ v, p c = true) : ¬∀ c ∈ v.dropWhile p, p c = true :=
  fun all => kept (trimBy_eq_nil_iff.mp (List.rdropWhile_eq_nil_iff.mpr all))

private theorem dropTrailing_eq_append_trimBy (kept : ¬∀ c ∈ v, p c = true) :
    dropTrailing p v = v.takeWhile p ++ trimBy p v := by
  have split := dropTrailing_append_of_kept (u := v.takeWhile p) (dropWhile_kept kept)
  rw [List.takeWhile_append_dropWhile] at split
  exact split

private theorem dropWhile_eq_trimBy_append (kept : ¬∀ c ∈ u, p c = true) :
    u.dropWhile p = trimBy p u ++ u.rtakeWhile p := by
  have behind := rtakeWhile_append_of_kept (u := u.takeWhile p) (dropWhile_kept kept)
  rw [List.takeWhile_append_dropWhile] at behind
  rw [behind, trimBy, dropTrailing_eq_rdropWhile, List.rdropWhile_append_rtakeWhile]

end

private theorem trimBy_append (u v : List Char) :
    trimBy isXmlBlank (u ++ v) = trimBy isXmlBlank u ++ seam u v ++ trimBy isXmlBlank v := by
  unfold seam
  split
  · rename_i blank
    rw [Bool.or_eq_true, List.all_eq_true, List.all_eq_true] at blank
    rcases blank with blank | blank
    · rw [trimBy, List.dropWhile_append_of_pos blank, trimBy_eq_nil_iff.mpr blank]
      rfl
    · by_cases blankBefore : ∀ c ∈ u, isXmlBlank c = true
      · rw [trimBy, List.dropWhile_append_of_pos blankBefore, trimBy_eq_nil_iff.mpr blankBefore]
        rfl
      · rw [trimBy, dropWhile_append_of_kept blankBefore, dropTrailing_append _ blank,
          trimBy_eq_nil_iff.mpr blank, List.append_nil, List.append_nil]
        rfl
  · rename_i kept
    rw [Bool.or_eq_true, not_or, List.all_eq_true, List.all_eq_true] at kept
    rw [trimBy, dropWhile_append_of_kept kept.1, dropTrailing_append_of_kept kept.2,
      dropWhile_eq_trimBy_append kept.1, dropTrailing_eq_append_trimBy kept.2]
    simp only [List.append_assoc]

/-- A text resolves to what its trimmed parts resolve to, with the blanks between them. -/
theorem exists_of_unescape_trimBy_append {u v told : List Char} (ends : ReferencesEnd u)
    (succeeded : unescape (trimBy isXmlBlank (u ++ v)) = .ok told) :
    ∃ first second, unescape (trimBy isXmlBlank u) = .ok first ∧
      unescape (trimBy isXmlBlank v) = .ok second ∧ told = first ++ seam u v ++ second := by
  rw [resolves_iff, trimBy_append, List.append_assoc] at succeeded
  obtain ⟨first, behind, rfl, front, rest⟩ := succeeded.split ends.trimBy
  have blank : ∀ c ∈ seam u v, isXmlBlank c = true := fun c => isXmlBlank_of_mem_seam
  obtain ⟨between, second, rfl, middle, last⟩ := rest.split (referencesEnd_of_blank blank)
  obtain rfl := Except.ok.inj
    ((resolves_iff.mpr middle).symm.trans (resolves_iff.mpr (Resolves.of_blank blank)))
  exact ⟨first, second, resolves_iff.mpr front, resolves_iff.mpr last, by rw [List.append_assoc]⟩

end ShoreMetadata.Xml
