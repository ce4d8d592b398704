import ShoreMetadata.Proofs.Xml.Mark

/-! Pieces of markup. Where one ends does not depend on what follows, so that every text is taken
apart into pieces of markup and the texts between them. -/

namespace ShoreMetadata.Xml

open Text

/-! The `>` that ends a content is found character by character. -/

section

variable {σ : Type} {stops : σ → Char → Bool} {next : σ → Char → σ} {state : σ}

/-- What stands before the first character at which a search stops; it keeps a state. -/
def until? (stops : σ → Char → Bool) (next : σ → Char → σ) (state : σ) :
    List Char → Option (List Char)
  | [] => none
  | c :: cs =>
    if stops state c then some [] else (until? stops next (next state c) cs).map (c :: ·)

/-- A search finds a content up to a `>` and does not look past it. -/
def EndsContent (find? : List Char → Option (List Char)) : Prop :=
  ∀ cs content, find? cs = some content → ∃ rest, cs = content ++ '>' :: rest ∧
    ∀ other, find? (content ++ '>' :: other) = some content

private theorem endsContent_until? (atEnd : ∀ state c, stops state c = true → c = '>') :
    EndsContent (until? stops next state) := by
  intro cs content found
  induction cs generalizing state content with
  | nil => cases found
  | cons c cs ih =>
      rw [until?] at found
      split at found
      · rename_i stop
        cases found
        obtain rfl := atEnd state c stop
        exact ⟨cs, rfl, fun other => by simp [until?, stop]⟩
      · rename_i goOn
        obtain ⟨inside, foundRest, rfl⟩ := Option.map_eq_some_iff.mp found
        obtain ⟨rest, rfl, again⟩ := ih inside foundRest
        exact ⟨rest, rfl, fun other => by simp [until?, goOn, again other]⟩

private theorem endsContent_of_eq (stops : σ → Char → Bool) (next : σ → Char → σ) (state : σ)
    {find? : List Char → Option (List Char)} (same : ∀ cs, find? cs = until? stops next state cs)
    (atEnd : ∀ state c, stops state c = true → c = '>') : EndsContent find? := by
  rw [funext same]
  exact endsContent_until? atEnd

end

private theorem endsContent_tagContent? (quote : Option Char) :
    EndsContent (tagContent? quote) := by
  refine endsContent_of_eq (fun quote c => quote.isNone && c == '>')
    (fun quote c => quote.elim (if c = '"' ∨ c = '\'' then some c else none)
      fun q => if c = q then none else quote) quote (fun cs => ?_) (by simp)
  induction cs generalizing quote with
  | nil => cases quote <;> rfl
  | cons c cs ih => cases quote <;> simp [tagContent?, until?, ih]

private theorem endsContent_markedContent? (mark : Char) (least index : Nat) (second first : Char) :
    EndsContent (markedContent? mark least index second first) := by
  refine endsContent_of_eq
    (fun state c => decide (c = '>' ∧ state.2.1 = mark ∧ state.2.2 = mark ∧ least ≤ state.1))
    (fun state c => (state.1 + 1, state.2.2, c)) (index, second, first) (fun cs => ?_)
    fun _ _ stop => (of_decide_eq_true stop).1
  induction cs generalizing index second first with
  | nil => rfl
  | cons c cs ih => simp [markedContent?, until?, ih]

private theorem endsContent_doctypeContent? (depth : Nat) :
    EndsContent (doctypeContent? depth) := by
  refine endsContent_of_eq (fun depth c => decide (c = '>' ∧ depth = 0))
    (fun depth c => if c = '<' then depth + 1 else if c = '>' then depth - 1 else depth) depth
    (fun cs => ?_) fun _ _ stop => (of_decide_eq_true stop).1
  induction cs generalizing depth with
  | nil => rfl
  | cons c cs ih => simp [doctypeContent?, until?, ih]

private theorem endsContent_instructionContent? (previous : Char) :
    EndsContent (instructionContent? previous) := by
  refine endsContent_of_eq (fun previous c => decide (c = '>' ∧ previous = '?'))
    (fun _ c => c) previous (fun cs => ?_) fun _ _ stop => (of_decide_eq_true stop).1
  induction cs generalizing previous with
  | nil => rfl
  | cons c cs ih => simp [instructionContent?, until?, ih]

/-- `<`, a content and `>` are a piece of markup, whatever follows. -/
def Piece (content : List Char) (markup : Markup) : Prop :=
  ∀ rest, readMarkup (content ++ '>' :: rest) = .ok (content, markup)

def EndsMarkup (read : List Char → MarkupResult) : Prop :=
  ∀ cs content markup, read cs = .ok (content, markup) → ∃ rest, cs = content ++ '>' :: rest ∧
    ∀ other, read (content ++ '>' :: other) = .ok (content, markup)

private theorem endsMarkup_of_content {read : List Char → MarkupResult}
    {find? : List Char → Option (List Char)} (fault : Nat × MarkupFault)
    (after : List Char → MarkupResult) (ends : EndsContent find?)
    (same : ∀ cs, read cs = (find? cs).elim (.error fault) after)
    (kept : ∀ inside content markup, after inside = .ok (content, markup) → content = inside) :
    EndsMarkup read := by
  intro cs content markup succeeded
  rw [same] at succeeded
  cases found : find? cs with
  | none =>
      rw [found] at succeeded
      cases succeeded
  | some inside =>
      rw [found] at succeeded
      obtain rfl := kept inside content markup succeeded
      obtain ⟨rest, split, again⟩ := ends cs content found
      refine ⟨rest, split, fun other => ?_⟩
      rw [same, again other]
      exact succeeded

private theorem endsMarkup_readTag : EndsMarkup readTag := by
  refine endsMarkup_of_content (0, .unclosedTag)
    (fun content => .ok (content, tagMarkup content)) (endsContent_tagContent? none)
    (fun cs => ?_) ?_
  · unfold readTag
    cases tagContent? none cs <;> rfl
  · rintro inside content markup ⟨⟩
    rfl

private theorem endsMarkup_readComment : EndsMarkup readComment := by
  refine endsMarkup_of_content (0, .unclosedComment)
    (fun content => if startsWith content "!--".toList then .ok (content, .aside)
      else .error (0, .unclosedComment))
    (endsContent_markedContent? '-' 5 0 '!' '!') (fun cs => ?_) ?_
  · unfold readComment
    cases markedContent? '-' 5 0 '!' '!' cs <;> rfl
  · intro inside content markup succeeded
    split at succeeded <;> cases succeeded
    rfl

private theorem endsMarkup_readCData : EndsMarkup readCData := by
  refine endsMarkup_of_content (0, .unclosedCData)
    (fun content => if startsWith content "![CDATA[".toList then
      .ok (content, .cdata ((content.drop 8).take (content.length - 10)))
      else .error (0, .unclosedCData))
    (endsContent_markedContent? ']' 0 0 '!' '!') (fun cs => ?_) ?_
  · unfold readCData
    cases markedContent? ']' 0 0 '!' '!' cs <;> rfl
  · intro inside content markup succeeded
    split at succeeded <;> cases succeeded
    rfl

private theorem endsMarkup_readDoctype : EndsMarkup readDoctype := by
  refine endsMarkup_of_content (0, .unclosedDoctype)
    (fun content =>
      if !startsWithIgnoringCase content "!DOCTYPE".toList then .error (0, .unclosedDoctype)
      else if (content.drop 8).all isXmlBlank then
        .error (1 + byteLength content, .unnamedDoctype)
      else .ok (content, .aside))
    (endsContent_doctypeContent? 0) (fun cs => ?_) ?_
  · unfold readDoctype
    cases doctypeContent? 0 cs <;> rfl
  · intro inside content markup succeeded
    split at succeeded
    · cases succeeded
    · split at succeeded <;> cases succeeded
      rfl

private theorem readInstruction_eq_ok {cs content : List Char} {markup : Markup}
    (read : readInstruction ('?' :: cs) = .ok (content, markup)) :
    ∃ inside rest, content = '?' :: inside ∧ cs = inside ++ '>' :: rest ∧
      ∀ other, readInstruction ('?' :: (inside ++ '>' :: other)) = .ok (content, markup) := by
  unfold readInstruction at read
  split at read
  · cases read
  · rename_i inside _ found
    cases read
    rw [List.drop_succ_cons, List.drop_zero] at found
    obtain ⟨rest, split, again⟩ := endsContent_instructionContent? '?' cs inside found
    refine ⟨inside, rest, rfl, split, fun other => ?_⟩
    simp only [readInstruction, List.drop_succ_cons, List.drop_zero, again other]
  · cases read

theorem piece_of_readMarkup {cs content : List Char} {markup : Markup}
    (read : readMarkup cs = .ok (content, markup)) :
    Piece content markup ∧ ∃ rest, cs = content ++ '>' :: rest := by
  -- What stands before the first `>` decides which reader is taken.
  have marked : ∀ {reader : List Char → MarkupResult} {c d : Char} {more : List Char},
      EndsMarkup reader → c ≠ '>' → d ≠ '>' → cs = c :: d :: more →
      (∀ more, readMarkup (c :: d :: more) = reader (c :: d :: more)) →
      Piece content markup ∧ ∃ rest, cs = content ++ '>' :: rest := by
    rintro reader c d more ends noFirst noSecond rfl same
    rw [same] at read
    obtain ⟨rest, split, again⟩ := ends _ content markup read
    refine ⟨fun other => ?_, rest, split⟩
    match content with
    | [] =>
        cases split
        contradiction
    | [_] =>
        cases split
        contradiction
    | _ :: _ :: inside =>
        cases split
        exact (same _).trans (again other)
  unfold readMarkup at read
  split at read
  · exact marked endsMarkup_readCData (by decide) (by decide) rfl fun _ => rfl
  · exact marked endsMarkup_readComment (by decide) (by decide) rfl fun _ => rfl
  · exact marked endsMarkup_readDoctype (by decide) (by decide) rfl fun _ => rfl
  · exact marked endsMarkup_readDoctype (by decide) (by decide) rfl fun _ => rfl
  · cases read
  · obtain ⟨inside, rest, rfl, rfl, again⟩ := readInstruction_eq_ok read
    exact ⟨again, rest, rfl⟩
  · rename_i noMark noQuestion
    obtain ⟨rest, rfl, again⟩ := endsMarkup_readTag _ content markup read
    refine ⟨fun other => ?_, rest, rfl⟩
    rw [← again other]
    cases content with
    | nil => rfl
    | cons c inside =>
        refine readMarkup_tag ?_ ?_
        · rintro rfl
          exact noMark _ rfl
        · rintro rfl
          exact noQuestion _ rfl

theorem scanFrom_of_nil (offset : Nat) {cs : List Char} (none : cs.dropWhile isXmlBlank = []) :
    scanFrom offset cs = .done := by
  rw [scanFrom]
  split
  · rfl
  · rename_i found
    rw [none] at found
    cases found

theorem scanFrom_of_cons (offset : Nat) {cs rest : List Char} {c : Char}
    (found : cs.dropWhile isXmlBlank = c :: rest) :
    scanFrom offset cs =
      let start := offset + byteLength (cs.takeWhile isXmlBlank)
      if c = '<' then
        match readMarkup rest with
        | .error (distance, fault) => .fault (start + distance) fault
        | .ok (content, markup) =>
          let stop := start + 1 + byteLength content + 1
          .token ⟨markup, offset, start, stop⟩ (scanFrom stop (rest.drop (content.length + 1)))
      else
        let text := rest.takeWhile (· ≠ '<')
        let stop := start + byteLength (c :: text)
        .token ⟨.text (dropTrailing isXmlBlank (c :: text)), offset, start, stop⟩
          (scanFrom stop (rest.drop text.length)) := by
  rw [scanFrom]
  split
  · rename_i none
    rw [found] at none
    cases none
  · rename_i found'
    rw [found] at found'
    cases found'
    rfl

/-- A text up to the end of a piece of markup, with all markup in it. -/
inductive Passes : List Char → List Markup → Prop
  | nil : Passes [] []
  | snoc {front text content : List Char} {markups : List Markup} {markup : Markup}
      (passed : Passes front markups) (plain : '<' ∉ text) (piece : Piece content markup) :
      Passes (front ++ text ++ '<' :: content ++ ['>']) (markups ++ [markup])

inductive ScansTo (offset : Nat) : List Char → Tokens → Prop
  | done {blanks : List Char} (blank : ∀ c ∈ blanks, isXmlBlank c = true) :
      ScansTo offset blanks .done
  | fault (cs : List Char) (place : Nat) (fault : MarkupFault) :
      ScansTo offset cs (.fault place fault)
  | markup {blanks content : List Char} {markup : Markup} (rest : List Char)
      (blank : ∀ c ∈ blanks, isXmlBlank c = true) (piece : Piece content markup) :
      ScansTo offset (blanks ++ '<' :: content ++ '>' :: rest)
        (.token ⟨markup, offset, offset + byteLength blanks,
            offset + byteLength (blanks ++ '<' :: content ++ ['>'])⟩
          (scanFrom (offset + byteLength (blanks ++ '<' :: content ++ ['>'])) rest))
  | text {blanks text : List Char} (rest : List Char)
      (blank : ∀ c ∈ blanks, isXmlBlank c = true) (filled : text ≠ []) (plain : '<' ∉ text) :
      ScansTo offset (blanks ++ text ++ rest)
        (.token ⟨.text (dropTrailing isXmlBlank text), offset, offset + byteLength blanks,
            offset + byteLength (blanks ++ text)⟩
          (scanFrom (offset + byteLength (blanks ++ text)) rest))

theorem scansTo_scanFrom (offset : Nat) (cs : List Char) :
    ScansTo offset cs (scanFrom offset cs) := by
  have blank : ∀ c ∈ cs.takeWhile isXmlBlank, isXmlBlank c = true :=
    fun c member => List.mem_takeWhile_imp member
  have whole : cs.takeWhile isXmlBlank ++ cs.dropWhile isXmlBlank = cs :=
    List.takeWhile_append_dropWhile
  cases found : cs.dropWhile isXmlBlank with
  | nil =>
      rw [scanFrom_of_nil offset found]
      rw [found, List.append_nil] at whole
      rw [← whole]
      exact .done blank
  | cons c rest =>
      rw [scanFrom_of_cons offset found]
      rw [found] at whole
      dsimp only
      generalize cs.takeWhile isXmlBlank = blanks at blank whole ⊢
      subst whole
      split
      · rename_i opening
        subst opening
        split
        · exact .fault _ _ _
        · rename_i content markup read
          obtain ⟨piece, more, rfl⟩ := piece_of_readMarkup read
          have left : (content ++ '>' :: more).drop (content.length + 1) = more := by
            simp [List.drop_append]
          have size : offset + byteLength blanks + 1 + byteLength content + 1 =
              offset + byteLength (blanks ++ '<' :: content ++ ['>']) := by
            simp only [byteLength_append, byteLength]
            have opening : '<'.utf8Size = 1 := by decide
            have closing : '>'.utf8Size = 1 := by decide
            omega
          have shape : blanks ++ '<' :: (content ++ '>' :: more) =
              blanks ++ '<' :: content ++ '>' :: more := by
            simp
          rw [left, shape, size]
          exact .markup more blank piece
      · rename_i noOpening
        have halves : rest.takeWhile (· ≠ '<') ++ rest.dropWhile (· ≠ '<') = rest :=
          List.takeWhile_append_dropWhile
        have inside : ∀ d ∈ rest.takeWhile (· ≠ '<'), d ≠ '<' := fun d member => by
          simpa using List.mem_takeWhile_imp member
        generalize rest.takeWhile (· ≠ '<') = text at halves inside ⊢
        generalize rest.dropWhile (· ≠ '<') = more at halves
        subst halves
        have plain : '<' ∉ c :: text := by
          rw [List.mem_cons]
          rintro (rfl | member)
          · exact noOpening rfl
          · exact inside _ member rfl
        have shape : blanks ++ c :: (text ++ more) = blanks ++ (c :: text) ++ more := by
          simp
        rw [List.drop_left, shape, Nat.add_assoc, ← byteLength_append]
        exact .text _ blank (List.cons_ne_nil _ _) plain

end ShoreMetadata.Xml
