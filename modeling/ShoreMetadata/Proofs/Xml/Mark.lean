import ShoreMetadata.Proofs.Xml.Tag

/-! The marks of a written tree are scanned one by one, whatever blanks stand
between them. -/

namespace ShoreMetadata.Xml

open Text

namespace Mark

def markup : Mark → Markup
  | .declaration => .aside
  | .opening name attributes => .opening (tagChars name attributes)
  | .single name attributes => .single (tagChars name attributes)
  | .text content => .text (escape content)
  | .closing name => .closing name.toList

def Legible : Mark → Prop
  | .declaration => True
  | .opening name attributes | .single name attributes =>
    isName name.toList = true ∧ ∀ a ∈ attributes, isAttributeName a.1.toList = true
  | .text content => content ≠ [] ∧ trimBy isBlank content = content
  | .closing name => isName name.toList = true

def isText : Mark → Bool
  | .text _ => true
  | _ => false

end Mark

namespace Mark

private theorem chars_declaration : declaration.chars =
    '<' :: "?xml version=\"1.0\" encoding=\"UTF-8\"?".toList ++ ['>'] := by
  decide

private theorem chars_opening (name : String) (attributes : List (String × String)) :
    (opening name attributes).chars = '<' :: tagChars name attributes ++ ['>'] := rfl

private theorem chars_single (name : String) (attributes : List (String × String)) :
    (single name attributes).chars = '<' :: (tagChars name attributes ++ ['/']) ++ ['>'] := by
  change '<' :: name.toList ++ attributeChars attributes ++ ['/', '>'] = _
  simp [tagChars]

private theorem chars_closing (name : String) :
    (closing name).chars = '<' :: ('/' :: name.toList) ++ ['>'] := rfl

end Mark

theorem scanFrom_markup {content blanks : List Char} {markup : Markup} (offset : Nat)
    (rest : List Char) (blank : ∀ c ∈ blanks, isXmlBlank c = true)
    (read : readMarkup (content ++ '>' :: rest) = .ok (content, markup)) :
    ∃ token stop,
      scanFrom offset (blanks ++ '<' :: content ++ '>' :: rest) =
        .token token (scanFrom stop rest) ∧
      token.markup = markup := by
  have noBlank : isXmlBlank '<' = false := by decide
  have started : (blanks ++ '<' :: content ++ '>' :: rest).dropWhile isXmlBlank =
      '<' :: (content ++ '>' :: rest) := by
    rw [List.append_assoc, List.dropWhile_append_of_pos blank]
    simp [noBlank]
  rw [scanFrom]
  split
  · rename_i nothing
    rw [started] at nothing
    cases nothing
  · rename_i c more found
    rw [started] at found
    cases found
    rw [if_pos rfl]
    split
    · rename_i failed
      rw [read] at failed
      cases failed
    · rename_i succeeded
      rw [read] at succeeded
      cases succeeded
      have left : (content ++ '>' :: rest).drop (content.length + 1) = rest := by
        simp [List.drop_append]
      rw [left]
      exact ⟨_, _, rfl, rfl⟩

theorem readMarkup_tag {c : Char} {rest : List Char} (noMark : c ≠ '!') (noQuestion : c ≠ '?') :
    readMarkup (c :: rest) = readTag (c :: rest) := by
  unfold readMarkup
  split
  case h_7 => rfl
  all_goals
    rename_i same
    cases same
    contradiction

private theorem readTag_tagContent {content rest : List Char}
    (whole : ∀ rest, tagContent? none (content ++ rest) =
      (tagContent? none rest).map (content ++ ·)) :
    readTag (content ++ '>' :: rest) = .ok (content, tagMarkup content) := by
  simp [readTag, whole, tagContent?]

private theorem readMarkup_declaration (rest : List Char) :
    readMarkup ("?xml version=\"1.0\" encoding=\"UTF-8\"?".toList ++ '>' :: rest) =
      .ok ("?xml version=\"1.0\" encoding=\"UTF-8\"?".toList, .aside) := by
  simp [readMarkup, readInstruction, instructionContent?]

private theorem getLast?_attributeChars {attributes : List (String × String)}
    (nonempty : attributes ≠ []) : (attributeChars attributes).getLast? = some '"' := by
  induction attributes with
  | nil => contradiction
  | cons a more ih =>
      cases more with
      | nil => simp [attributeChars, List.getLast?_cons]
      | cons b more =>
          have lastMore := ih (by simp)
          rw [attributeChars]
          simp [List.getLast?_cons, lastMore]

private theorem getLast?_tagChars {name : String} {attributes : List (String × String)}
    (namedTag : isName name.toList = true) :
    (tagChars name attributes).getLast? ≠ some '/' := by
  intro last
  cases attributes with
  | nil =>
      have member : '/' ∈ name.toList := by
        apply List.mem_of_getLast?
        simpa [tagChars, attributeChars] using last
      exact absurd (isPlain_of_mem_name namedTag '/' member) (by decide)
  | cons a more =>
      have quote := getLast?_attributeChars (List.cons_ne_nil a more)
      rw [tagChars, List.getLast?_append, quote] at last
      cases last

private theorem tagMarkup_tagChars {name : String} {attributes : List (String × String)}
    (namedTag : isName name.toList = true) :
    tagMarkup (tagChars name attributes) = .opening (tagChars name attributes) ∧
      tagMarkup (tagChars name attributes ++ ['/']) = .single (tagChars name attributes) := by
  obtain ⟨first, rest, chars, letter⟩ := exists_cons_of_isName namedTag
  have noSlash : first ≠ '/' := by
    rintro rfl
    exact absurd letter (by decide)
  have head : ∀ more, (tagChars name attributes ++ more).head? ≠ some '/' := by
    simp [tagChars, chars, noSlash]
  constructor
  · rw [tagMarkup, if_neg (by simpa using head []), if_neg (getLast?_tagChars namedTag)]
  · rw [tagMarkup, if_neg (head _), if_pos (by simp), List.dropLast_concat]

private theorem readMarkup_written {name : String} {attributes : List (String × String)}
    (rest : List Char) (namedTag : isName name.toList = true) :
    readMarkup (tagChars name attributes ++ rest) =
      readTag (tagChars name attributes ++ rest) := by
  obtain ⟨first, letters, chars, letter⟩ := exists_cons_of_isName namedTag
  rw [tagChars, chars]
  apply readMarkup_tag
  · rintro rfl
    exact absurd letter (by decide)
  · rintro rfl
    exact absurd letter (by decide)

private theorem scanFrom_mark {mark : Mark} {blanks : List Char} (offset : Nat) (rest : List Char)
    (legible : mark.Legible) (noText : mark.isText = false)
    (blank : ∀ c ∈ blanks, isXmlBlank c = true) :
    ∃ token stop,
      scanFrom offset (blanks ++ mark.chars ++ rest) = .token token (scanFrom stop rest) ∧
      token.markup = mark.markup := by
  cases mark with
  | declaration =>
      have shape : blanks ++ Mark.declaration.chars ++ rest =
          blanks ++ '<' :: "?xml version=\"1.0\" encoding=\"UTF-8\"?".toList ++ '>' :: rest := by
        rw [Mark.chars_declaration]
        simp only [List.append_assoc, List.cons_append, List.nil_append]
      rw [shape]
      exact scanFrom_markup offset rest blank (readMarkup_declaration rest)
  | opening name attributes =>
      obtain ⟨namedTag, named⟩ := legible
      have shape : blanks ++ (Mark.opening name attributes).chars ++ rest =
          blanks ++ '<' :: tagChars name attributes ++ '>' :: rest := by
        simp only [Mark.chars_opening, List.append_assoc, List.cons_append, List.nil_append]
      rw [shape]
      apply scanFrom_markup offset rest blank
      rw [readMarkup_written _ namedTag,
        readTag_tagContent fun rest => tagContent?_tagChars rest namedTag named,
        (tagMarkup_tagChars namedTag).1]
      rfl
  | single name attributes =>
      obtain ⟨namedTag, named⟩ := legible
      have shape : blanks ++ (Mark.single name attributes).chars ++ rest =
          blanks ++ '<' :: (tagChars name attributes ++ ['/']) ++ '>' :: rest := by
        simp only [Mark.chars_single, List.append_assoc, List.cons_append, List.nil_append]
      rw [shape]
      apply scanFrom_markup offset rest blank
      have whole : ∀ rest, tagContent? none (tagChars name attributes ++ ['/'] ++ rest) =
          (tagContent? none rest).map (tagChars name attributes ++ ['/'] ++ ·) := by
        intro rest
        rw [List.append_assoc, tagContent?_tagChars _ namedTag named, List.singleton_append,
          tagContent?_cons_plain _ (by decide) (by decide) (by decide), Option.map_map]
        simp [Function.comp_def]
      rw [List.append_assoc, readMarkup_written _ namedTag, ← List.append_assoc,
        readTag_tagContent whole, (tagMarkup_tagChars namedTag).2]
      rfl
  | text content => cases noText
  | closing name =>
      have shape : blanks ++ (Mark.closing name).chars ++ rest =
          blanks ++ '<' :: ('/' :: name.toList) ++ '>' :: rest := by
        simp only [Mark.chars_closing, List.append_assoc, List.cons_append, List.nil_append]
      rw [shape]
      apply scanFrom_markup offset rest blank
      have whole : ∀ rest, tagContent? none ('/' :: name.toList ++ rest) =
          (tagContent? none rest).map ('/' :: name.toList ++ ·) := by
        intro rest
        rw [List.cons_append, tagContent?_cons_plain _ (by decide) (by decide) (by decide),
          tagContent?_plain _ (isPlain_of_mem_name legible), Option.map_map]
        rfl
      rw [List.cons_append, readMarkup_tag (by decide) (by decide), ← List.cons_append,
        readTag_tagContent whole]
      rfl

private theorem scanFrom_text {content blanks behind : List Char} (offset : Nat) (rest : List Char)
    (legible : (Mark.text content).Legible) (blank : ∀ c ∈ blanks, isXmlBlank c = true)
    (blankBehind : ∀ c ∈ behind, isXmlBlank c = true) :
    ∃ token stop,
      scanFrom offset (blanks ++ escape content ++ (behind ++ '<' :: rest)) =
        .token token (scanFrom stop ('<' :: rest)) ∧
      token.markup = .text (escape content) := by
  obtain ⟨nonempty, trimmed⟩ := legible
  obtain ⟨first, letters, chars⟩ : ∃ first letters, escape content = first :: letters :=
    List.exists_cons_of_ne_nil fun nothing => nonempty (escape_eq_nil_iff.mp nothing)
  have firstContent : ∀ c, content.head? = some c → isBlank c = false := by
    intro c head
    rw [← trimmed] at head
    exact head?_trimBy head
  have lastContent : ∀ c, content.getLast? = some c → isBlank c = false := by
    intro c last
    rw [← trimmed] at last
    exact getLast?_trimBy last
  have firstKept : isXmlBlank first = false :=
    head?_escape firstContent (by rw [chars]; rfl)
  have noMarkup : ∀ c ∈ first :: letters, c ≠ '<' :=
    fun c member => (not_special_of_mem_escape (chars ▸ member)).1
  have started : (blanks ++ escape content ++ (behind ++ '<' :: rest)).dropWhile isXmlBlank =
      first :: (letters ++ behind ++ '<' :: rest) := by
    rw [List.append_assoc, List.dropWhile_append_of_pos blank, chars]
    simp [firstKept]
  have stays : ∀ c ∈ letters ++ behind, decide (c ≠ '<') = true := by
    intro c member
    rw [List.mem_append] at member
    rcases member with member | member
    · simpa using noMarkup c (by simp [member])
    · have isBlankChar := blankBehind c member
      have notOpening : c ≠ '<' := by
        rintro rfl
        exact absurd isBlankChar (by decide)
      simpa using notOpening
  have taken : (letters ++ behind ++ '<' :: rest).takeWhile (· ≠ '<') = letters ++ behind := by
    rw [List.takeWhile_append_of_pos stays]
    simp
  have left : (letters ++ behind ++ '<' :: rest).drop (letters ++ behind).length =
      '<' :: rest := by
    rw [List.drop_left]
  have ended : dropTrailing isXmlBlank (first :: (letters ++ behind)) = first :: letters := by
    rw [← List.cons_append, dropTrailing_append _ blankBehind, ← chars]
    exact dropTrailing_of_getLast fun c last => getLast?_escape lastContent last
  rw [scanFrom]
  split
  · rename_i nothing
    rw [started] at nothing
    cases nothing
  · rename_i c more found
    rw [started] at found
    cases found
    rw [if_neg (noMarkup first (by simp)), taken]
    simp only [left, ended]
    rw [chars]
    exact ⟨_, _, rfl, rfl⟩

/-- The text of marks in their order, each of them behind any blanks. -/
inductive Spaced : List Mark → List Char → Prop
  | nil {blanks : List Char} (blank : ∀ c ∈ blanks, isXmlBlank c = true) : Spaced [] blanks
  | cons {mark : Mark} {marks : List Mark} {blanks cs : List Char}
      (blank : ∀ c ∈ blanks, isXmlBlank c = true) (rest : Spaced marks cs) :
      Spaced (mark :: marks) (blanks ++ mark.chars ++ cs)

private theorem exists_chars_eq {mark : Mark} (noText : mark.isText = false) :
    ∃ rest, mark.chars = '<' :: rest := by
  cases mark with
  | declaration => exact ⟨_, Mark.chars_declaration⟩
  | opening name attributes => exact ⟨_, Mark.chars_opening name attributes⟩
  | single name attributes => exact ⟨_, Mark.chars_single name attributes⟩
  | text content => cases noText
  | closing name => exact ⟨_, Mark.chars_closing name⟩

namespace Spaced

private theorem adjacent (mark : Mark) {marks : List Mark} {cs : List Char}
    (rest : Spaced marks cs) : Spaced (mark :: marks) (mark.chars ++ cs) :=
  @cons mark marks [] cs (by simp) rest

theorem scan {mark : Mark} {marks : List Mark} {cs : List Char}
    (spaced : Spaced (mark :: marks) cs) (legible : mark.Legible)
    (followed : mark.isText = true → ∃ next more, marks = next :: more ∧ next.isText = false)
    (offset : Nat) :
    ∃ token stop left,
      scanFrom offset cs = .token token (scanFrom stop left) ∧
      token.markup = mark.markup ∧ Spaced marks left := by
  obtain _ | @⟨_, _, blanks, cs, blank, rest⟩ := spaced
  cases kind : mark.isText with
  | false =>
      obtain ⟨token, stop, scanned, markup⟩ := scanFrom_mark offset cs legible kind blank
      exact ⟨token, stop, cs, scanned, markup, rest⟩
  | true =>
      obtain ⟨next, more, rfl, noText⟩ := followed kind
      obtain _ | @⟨_, _, behind, cs, blankBehind, rest⟩ := rest
      obtain ⟨nextRest, nextChars⟩ := exists_chars_eq noText
      cases mark with
      | text content =>
          obtain ⟨token, stop, scanned, markup⟩ :=
            scanFrom_text offset (nextRest ++ cs) legible blank blankBehind
          refine ⟨token, stop, next.chars ++ cs, ?_, markup, ?_⟩
          · rw [nextChars, List.append_assoc behind, List.cons_append, ← scanned]
            rfl
          · exact adjacent next rest
      | _ => cases kind

theorem chars (marks : List Mark) : Spaced marks (marks.flatMap Mark.chars) := by
  induction marks with
  | nil => exact .nil (by simp)
  | cons mark marks ih => exact adjacent mark ih

theorem head?_ne {mark : Mark} {marks : List Mark} {cs : List Char} {c : Char}
    (spaced : Spaced (mark :: marks) cs) (noText : mark.isText = false)
    (noBlank : isXmlBlank c = false) (noMarkup : c ≠ '<') : cs.head? ≠ some c := by
  obtain _ | @⟨_, _, blanks, cs, blank, rest⟩ := spaced
  obtain ⟨inside, chars⟩ := exists_chars_eq noText
  rw [chars]
  cases blanks with
  | nil => simpa using noMarkup.symm
  | cons first blanks =>
      have firstBlank := blank first (by simp)
      rintro head
      cases head
      rw [noBlank] at firstBlank
      contradiction

private theorem isXmlBlank_of_mem_lineBreak {depth : Nat} {c : Char}
    (member : c ∈ lineBreak depth) : isXmlBlank c = true := by
  rw [lineBreak, List.mem_cons, List.mem_replicate] at member
  rcases member with rfl | ⟨_, rfl⟩ <;> decide

theorem indented (depth : Nat) (breaks : Bool) (marks : List Mark) :
    Spaced marks (Xml.indented depth breaks marks) := by
  induction marks generalizing depth breaks with
  | nil => exact .nil (by simp [Xml.indented])
  | cons mark marks ih =>
      have blank : ∀ outer, ∀ c ∈ if breaks then lineBreak outer else [],
          isXmlBlank c = true := by
        intro outer c member
        split at member
        · exact isXmlBlank_of_mem_lineBreak member
        · cases member
      cases mark with
      | text content => exact adjacent _ (ih _ _)
      | _ => exact .cons (blank _) (ih _ _)

end Spaced

end ShoreMetadata.Xml
