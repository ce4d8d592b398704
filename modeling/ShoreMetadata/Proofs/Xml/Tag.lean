import ShoreMetadata.Proofs.Xml.Reference
import ShoreMetadata.Xml.Attribute
import ShoreMetadata.Xml.Token
import ShoreMetadata.Xml.Writer

/-! Tags as they are written are read with the same name and attributes. -/

namespace ShoreMetadata.Xml

open Text

def isNameChar (c : Char) : Bool :=
  c.isAlphanum || c == '-' || c == '_' || c == '.'

/-- A letter, then letters, digits, `-`, `_` and `.`. -/
def isName : List Char → Bool
  | [] => false
  | c :: rest => c.isAlpha && rest.all isNameChar

def isAttributeName (cs : List Char) : Bool :=
  match cs.dropWhile (· ≠ ':') with
  | [] => isName cs
  | _ :: rest => isName (cs.takeWhile (· ≠ ':')) && isName rest

def isPlain (c : Char) : Bool :=
  isNameChar c || c == ':'

private theorem isPlain_of_isNameChar {c : Char} (h : isNameChar c = true) : isPlain c = true := by
  simp [isPlain, h]

theorem isXmlBlank_of_isPlain {c : Char} (plain : isPlain c = true) : isXmlBlank c = false := by
  cases blank : isXmlBlank c with
  | false => rfl
  | true =>
      simp only [isXmlBlank, Bool.or_eq_true, beq_iff_eq] at blank
      rcases blank with ((rfl | rfl) | rfl) | rfl <;> exact absurd plain (by decide)

private theorem ne_of_isPlain {c d : Char} (plain : isPlain c = true)
    (special : isPlain d = false) : c ≠ d := by
  rintro rfl
  rw [plain] at special
  contradiction

private theorem isNameChar_of_mem {cs : List Char} (named : isName cs = true) :
    ∀ c ∈ cs, isNameChar c = true := by
  cases cs with
  | nil => simp
  | cons first rest =>
      simp only [isName, Bool.and_eq_true, List.all_eq_true] at named
      intro c member
      cases member with
      | head => simp [isNameChar, Char.isAlphanum, named.1]
      | tail _ member => exact named.2 c member

theorem exists_cons_of_isName {cs : List Char} (named : isName cs = true) :
    ∃ first rest, cs = first :: rest ∧ first.isAlpha = true := by
  cases cs with
  | nil => cases named
  | cons first rest =>
      simp only [isName, Bool.and_eq_true] at named
      exact ⟨first, rest, rfl, named.1⟩

theorem isPlain_of_mem_name {cs : List Char} (named : isName cs = true) :
    ∀ c ∈ cs, isPlain c = true :=
  fun c member => isPlain_of_isNameChar (isNameChar_of_mem named c member)

private theorem isPlain_of_mem_attributeName {cs : List Char} (named : isAttributeName cs = true) :
    ∀ c ∈ cs, isPlain c = true := by
  intro c member
  unfold isAttributeName at named
  split at named
  · exact isPlain_of_mem_name named c member
  · rename_i colon rest found
    rw [Bool.and_eq_true] at named
    rw [← List.takeWhile_append_dropWhile (l := cs) (p := (· ≠ ':')), found,
      List.mem_append, List.mem_cons] at member
    have isColon : colon = ':' := by
      have stopped : (cs.dropWhile (· ≠ ':')).head? = some colon := by rw [found]; rfl
      simpa using head?_dropWhile stopped
    rcases member with member | rfl | member
    · exact isPlain_of_mem_name named.1 c member
    · rw [isColon]
      decide
    · exact isPlain_of_mem_name named.2 c member

private theorem attributeName_ne_nil {cs : List Char} (named : isAttributeName cs = true) :
    cs ≠ [] := by
  rintro rfl
  exact absurd named (by decide)

theorem tagContent?_plain {cs : List Char} (rest : List Char)
    (plain : ∀ c ∈ cs, isPlain c = true) :
    tagContent? none (cs ++ rest) = (tagContent? none rest).map (cs ++ ·) := by
  induction cs with
  | nil => simp
  | cons c cs ih =>
      have here : isPlain c = true := plain c (by simp)
      have noEnd : c ≠ '>' := ne_of_isPlain here (by decide)
      have noDouble : c ≠ '"' := ne_of_isPlain here (by decide)
      have noSingle : c ≠ '\'' := ne_of_isPlain here (by decide)
      rw [List.cons_append, tagContent?]
      simp only [noEnd, noDouble, noSingle, or_self, if_false]
      rw [ih fun d member => plain d (by simp [member]), Option.map_map]
      rfl

private theorem tagContent?_quoted {cs : List Char} (rest : List Char)
    (inside : ∀ c ∈ cs, c ≠ '"') :
    tagContent? (some '"') (cs ++ '"' :: rest) =
      (tagContent? none rest).map (cs ++ '"' :: ·) := by
  induction cs with
  | nil => simp [tagContent?]
  | cons c cs ih =>
      rw [List.cons_append, tagContent?]
      simp only [inside c (by simp), if_false]
      rw [ih fun d member => inside d (by simp [member]), Option.map_map]
      rfl

theorem tagContent?_cons_plain {c : Char} (rest : List Char) (noEnd : c ≠ '>')
    (noDouble : c ≠ '"') (noSingle : c ≠ '\'') :
    tagContent? none (c :: rest) = (tagContent? none rest).map (c :: ·) := by
  rw [tagContent?]
  simp only [noEnd, noDouble, noSingle, or_self, if_false]

private theorem tagContent?_attributeChars {attributes : List (String × String)} (rest : List Char)
    (named : ∀ a ∈ attributes, isAttributeName a.1.toList = true) :
    tagContent? none (attributeChars attributes ++ rest) =
      (tagContent? none rest).map (attributeChars attributes ++ ·) := by
  induction attributes with
  | nil => simp [attributeChars]
  | cons a more ih =>
      obtain ⟨key, value⟩ := a
      have plain := isPlain_of_mem_attributeName (named (key, value) (by simp))
      have inside : ∀ c ∈ escape value.toList, c ≠ '"' :=
        fun c member => (not_special_of_mem_escape member).2.2
      have opened : tagContent? none ('"' :: (escape value.toList ++ '"' ::
          (attributeChars more ++ rest))) =
          (tagContent? none rest).map fun tail =>
            '"' :: (escape value.toList ++ '"' :: (attributeChars more ++ tail)) := by
        rw [tagContent?]
        simp only [Char.reduceEq, if_false, true_or, if_true]
        rw [tagContent?_quoted _ inside, ih fun a member => named a (by simp [member]),
          Option.map_map, Option.map_map]
        rfl
      simp only [attributeChars, List.cons_append, List.append_assoc]
      rw [tagContent?_cons_plain _ (by decide) (by decide) (by decide),
        tagContent?_plain _ plain,
        tagContent?_cons_plain _ (by decide) (by decide) (by decide), opened,
        Option.map_map, Option.map_map, Option.map_map]
      rfl

def tagChars (name : String) (attributes : List (String × String)) : List Char :=
  name.toList ++ attributeChars attributes

theorem tagContent?_tagChars {name : String} {attributes : List (String × String)}
    (rest : List Char) (namedTag : isName name.toList = true)
    (named : ∀ a ∈ attributes, isAttributeName a.1.toList = true) :
    tagContent? none (tagChars name attributes ++ rest) =
      (tagContent? none rest).map (tagChars name attributes ++ ·) := by
  rw [tagChars, List.append_assoc, tagContent?_plain _ (isPlain_of_mem_name namedTag),
    tagContent?_attributeChars rest named, Option.map_map]
  simp [Function.comp_def]

private theorem readAttribute_written {seen : List (List Char × Nat)} {place : Nat} {first : Char}
    {key value : List Char} (rest : List Char) (plain : ∀ c ∈ first :: key, isPlain c = true)
    (fresh : ∀ earlier ∈ seen, earlier.1 ≠ first :: key) (inside : ∀ c ∈ value, c ≠ '"') :
    ∃ stop, readAttribute seen place first (key ++ '=' :: '"' :: (value ++ '"' :: rest)) =
      .ok ⟨first :: key, place, value, rest, stop⟩ := by
  have keyTaken : ∀ c ∈ key, (!endsKey c) = true := by
    intro c member
    have plainChar := plain c (by simp [member])
    have noEquals : c ≠ '=' := ne_of_isPlain plainChar (by decide)
    simp [endsKey, isXmlBlank_of_isPlain plainChar, noEquals]
  have valueTaken : ∀ c ∈ value, decide (c ≠ '"') = true := by
    simpa using inside
  have isFresh : seen.find? (·.1 = first :: key) = none := by
    simpa [List.find?_eq_none] using fresh
  have blank : isXmlBlank '=' = false := by decide
  have blankQuote : isXmlBlank '"' = false := by decide
  simp only [readAttribute]
  rw [List.takeWhile_append_of_pos keyTaken, List.dropWhile_append_of_pos keyTaken]
  simp only [endsKey, beq_self_eq_true, Bool.true_or, Bool.not_true, Bool.false_eq_true,
    not_false_eq_true, List.takeWhile_cons_of_neg, List.dropWhile_cons_of_neg, blank,
    List.append_nil, isFresh, readValue, blankQuote, true_or, if_true]
  rw [List.takeWhile_append_of_pos valueTaken, List.dropWhile_append_of_pos valueTaken]
  simp

private theorem readAttributes_attributeChars {attributes : List (String × String)}
    (seen : List (List Char × Nat)) (place : Nat)
    (named : ∀ a ∈ attributes, isAttributeName a.1.toList = true)
    (distinct : (attributes.map Prod.fst).Nodup)
    (fresh : ∀ a ∈ attributes, ∀ earlier ∈ seen, earlier.1 ≠ a.1.toList) :
    readAttributes seen place (attributeChars attributes) = .ok attributes := by
  induction attributes generalizing seen place with
  | nil => simp [attributeChars, readAttributes]
  | cons a more ih =>
      obtain ⟨key, value⟩ := a
      have keyNamed := named (key, value) (by simp)
      have plain := isPlain_of_mem_attributeName keyNamed
      obtain ⟨first, letters, keyChars⟩ :=
        List.exists_cons_of_ne_nil (attributeName_ne_nil keyNamed)
      rw [keyChars] at plain
      have started : (attributeChars ((key, value) :: more)).dropWhile isXmlBlank =
          first :: (letters ++ '=' :: '"' ::
            (escape value.toList ++ '"' :: attributeChars more)) := by
        have firstKept := isXmlBlank_of_isPlain (plain first (by simp))
        have blank : isXmlBlank ' ' = true := by decide
        simp [attributeChars, keyChars, firstKept, blank]
      have read : ∀ place, ∃ stop, readAttribute seen place first (letters ++ '=' :: '"' ::
          (escape value.toList ++ '"' :: attributeChars more)) =
          .ok ⟨first :: letters, place, escape value.toList, attributeChars more, stop⟩ :=
        fun place => readAttribute_written _ plain
          (fun earlier member => keyChars ▸ fresh (key, value) (by simp) earlier member)
          fun c member => (not_special_of_mem_escape member).2.2
      rw [List.map_cons, List.nodup_cons] at distinct
      have freshMore : ∀ place, ∀ a ∈ more,
          ∀ earlier ∈ (first :: letters, place) :: seen, earlier.1 ≠ a.1.toList := by
        intro place a member earlier earlierMember
        rw [List.mem_cons] at earlierMember
        rcases earlierMember with rfl | earlierMember
        · rw [← keyChars]
          intro same
          exact distinct.1 (List.mem_map.mpr ⟨a, member, (String.toList_inj.mp same).symm⟩)
        · exact fresh a (by simp [member]) earlier earlierMember
      rw [readAttributes]
      split
      · rename_i nothing
        rw [started] at nothing
        cases nothing
      · rename_i c rest found
        rw [started] at found
        cases found
        obtain ⟨stop, readHere⟩ := read
          (place + byteLength ((attributeChars ((key, value) :: more)).takeWhile isXmlBlank))
        split
        · rename_i fault failed
          rw [readHere] at failed
          cases failed
        · rename_i raw succeeded
          rw [readHere] at succeeded
          cases succeeded
          rw [unescape_escape, ih _ _ (fun a member => named a (by simp [member]))
            distinct.2 (freshMore _)]
          change Except.ok
            ((String.ofList (first :: letters), String.ofList value.toList) :: more) = _
          rw [← keyChars, String.ofList_toList, String.ofList_toList]

theorem tagName_tagChars {name : String} {attributes : List (String × String)}
    (named : isName name.toList = true) : tagName (tagChars name attributes) = name.toList := by
  have kept : ∀ c ∈ name.toList, (!isXmlBlank c) = true := by
    intro c member
    simp [isXmlBlank_of_isPlain (isPlain_of_mem_name named c member)]
  rw [tagName, tagChars, List.takeWhile_append_of_pos kept]
  cases attributes with
  | nil => simp [attributeChars]
  | cons a more =>
      have blank : isXmlBlank ' ' = true := by decide
      simp [attributeChars, blank]

theorem tagAttributes_tagChars {name : String} {attributes : List (String × String)}
    (namedTag : isName name.toList = true)
    (named : ∀ a ∈ attributes, isAttributeName a.1.toList = true)
    (distinct : (attributes.map Prod.fst).Nodup) :
    tagAttributes (tagChars name attributes) = .ok attributes := by
  have left : (tagChars name attributes).drop name.toList.length = attributeChars attributes := by
    simp [tagChars]
  simp only [tagAttributes]
  rw [tagName_tagChars namedTag, left]
  exact readAttributes_attributeChars [] _ named distinct (by simp)

theorem localName_name {cs : List Char} (named : isName cs = true) : localName cs = cs := by
  have noColon : cs.dropWhile (· ≠ ':') = [] := by
    rw [List.dropWhile_eq_nil_iff]
    intro c member
    have nameChar := isNameChar_of_mem named c member
    have notColon : c ≠ ':' := by
      rintro rfl
      exact absurd nameChar (by decide)
    simpa using notColon
  rw [localName, noColon]

end ShoreMetadata.Xml
