import ShoreMetadata.Proofs.Xml.Alike
import ShoreMetadata.Proofs.Xml.Seam

/-! A comment put into the content of an element. It ends the text that it stands in, and both parts
are trimmed: the blanks around the comment are lost, and nothing else. -/

namespace ShoreMetadata.Xml

open Text

private theorem markedContent?_of_early {mark second first : Char} {least index : Nat}
    {cs : List Char} (noEnd : mark ≠ '>')
    (early : ∀ before after, second :: first :: (cs ++ [mark, mark]) =
      before ++ mark :: mark :: '>' :: after → index + before.length < least)
    (late : least ≤ index + cs.length + 2) (rest : List Char) :
    markedContent? mark least index second first (cs ++ mark :: mark :: '>' :: rest) =
      some (cs ++ [mark, mark]) := by
  induction cs generalizing index second first with
  | nil =>
      rw [List.length_nil, Nat.add_zero] at late
      simp [markedContent?, noEnd, late]
  | cons c cs ih =>
      have goOn : ¬(c = '>' ∧ second = mark ∧ first = mark ∧ least ≤ index) := by
        rintro ⟨rfl, rfl, rfl, reached⟩
        have tooEarly := early [] (cs ++ [first, first]) rfl
        simp only [List.length_nil] at tooEarly
        omega
      have earlyInside : ∀ before after, first :: c :: (cs ++ [mark, mark]) =
          before ++ mark :: mark :: '>' :: after → index + 1 + before.length < least := by
        intro before after split
        have earlier := early (second :: before) after (congrArg (second :: ·) split)
        simp only [List.length_cons] at earlier
        omega
      have inside := ih earlyInside (by simp only [List.length_cons] at late; omega)
      rw [List.cons_append, markedContent?, if_neg goOn, inside]
      rfl

private theorem dashes_of_split {comment inside after : List Char}
    (split : comment ++ ['-', '-'] = inside ++ '-' :: '-' :: '>' :: after) :
    ['-', '-'] <:+: comment := by
  have ended : comment ++ ['-', '-'] = inside ++ ['-', '-', '>'] ++ after := by
    rw [split]
    simp
  obtain ⟨left, front, behind⟩ | ⟨left, rfl, -⟩ := List.append_eq_append_iff.mp ended
  · cases left using List.reverseRecOn with
    | nil =>
        rw [List.append_nil] at front
        rw [← front]
        exact ⟨inside, ['>'], by simp⟩
    | append_singleton left last =>
        have lastDash : last ∈ ['-', '-'] := by rw [behind]; simp
        have lastMark : last = '>' := by
          have same := congrArg List.getLast? front
          simpa [← List.append_assoc] using same.symm
        subst lastMark
        simp at lastDash
  · exact ⟨inside, '>' :: left, by simp⟩

private theorem piece_comment {comment : List Char} (noDashes : ¬['-', '-'] <:+: comment) :
    Piece ("!--".toList ++ comment ++ "--".toList) .aside := by
  intro rest
  have ended : markedContent? '-' 5 0 '!' '!'
      ("!--".toList ++ comment ++ '-' :: '-' :: '>' :: rest) =
      some ("!--".toList ++ comment ++ ['-', '-']) := by
    refine markedContent?_of_early (by decide) (fun before after split => ?_) (by simp) rest
    by_contra late
    rw [Nat.zero_add, not_lt] at late
    have inside := congrArg (List.drop 5) split
    rw [List.drop_append_of_le_length late] at inside
    exact noDashes (dashes_of_split inside)
  have shape : "!--".toList ++ comment ++ "--".toList ++ '>' :: rest =
      "!--".toList ++ comment ++ '-' :: '-' :: '>' :: rest := by
    simp
  have started : startsWith ("!--".toList ++ comment ++ ['-', '-']) "!--".toList = true := by
    simp [startsWith]
  rw [shape]
  change readComment _ = _
  rw [readComment, ended]
  exact if_pos started

private theorem scanFrom_plain {text rest : List Char} (filled : ¬∀ c ∈ text, isXmlBlank c = true)
    (plain : '<' ∉ text) (ended : ∀ c, rest.head? = some c → c = '<') (offset : Nat) :
    ∃ token stop, scanFrom offset (text ++ rest) = .token token (scanFrom stop rest) ∧
      token.markup = .text (trimBy isXmlBlank text) := by
  obtain ⟨c, letters, found⟩ : ∃ c letters, text.dropWhile isXmlBlank = c :: letters :=
    List.exists_cons_of_ne_nil fun none => filled (List.dropWhile_eq_nil_iff.mp none)
  have plainLetters : ∀ d ∈ c :: letters, decide (d ≠ '<') = true := by
    intro d member
    rw [← found] at member
    refine decide_eq_true fun opening => plain ?_
    rw [← opening]
    exact (List.dropWhile_sublist isXmlBlank).subset member
  rw [List.forall_mem_cons] at plainLetters
  have started : (text ++ rest).dropWhile isXmlBlank = c :: (letters ++ rest) := by
    rw [dropWhile_append_of_kept filled, found, List.cons_append]
  have taken : (letters ++ rest).takeWhile (· ≠ '<') = letters :=
    takeWhile_append_of_head plainLetters.2 fun d head => by simp [ended d head]
  rw [scanFrom_of_cons offset started, if_neg (by simpa using plainLetters.1), taken]
  simp only [List.drop_left]
  exact ⟨_, _, rfl, by rw [trimBy, found]⟩

namespace Progress

/-- What a text is read as: outside the root it is passed over. -/
def told (progress : Progress) (text : List Char) : Except ReferenceFault (List Char) :=
  progress.addition (.text (trimBy isXmlBlank text))

theorem told_eq {progress : Progress} (occupied : progress.opened ≠ []) (text : List Char) :
    progress.told text = unescape (trimBy isXmlBlank text) :=
  if_neg (by simpa using occupied)

private theorem run_plain (source : Source) (progress : Progress) {text rest : List Char}
    (plain : '<' ∉ text) (ended : ∀ c, rest.head? = some c → c = '<') (offset : Nat) :
    ∃ place stop blanks, (∀ c ∈ blanks, isXmlBlank c = true) ∧
      progress.run source (scanFrom offset (text ++ rest)) =
        ((progress.told text).mapError fun fault => ⟨place, .reference fault⟩).bind fun told =>
          (progress.addText told).run source (scanFrom stop (blanks ++ rest)) := by
  by_cases blank : ∀ c ∈ text, isXmlBlank c = true
  · refine ⟨⟨1, 1⟩, offset, text, blank, ?_⟩
    have nothing : progress.told text = .ok [] := by
      rw [told, trimBy_eq_nil_iff.mpr blank, addition, unescape, unescapeFrom, ite_self]
    rw [nothing]
    exact congrArg (fun p => run source p _) progress.addText_nil.symm
  · obtain ⟨token, stop, scanned, markup⟩ := scanFrom_plain blank plain ended offset
    refine ⟨source.locate token.before, stop, [], by simp, ?_⟩
    rw [scanned, run_token, step, markup]
    obtain ⟨opened, root⟩ := progress
    cases opened with
    | nil => rfl
    | cons inner outer =>
        rw [told_eq (by simp)]
        dsimp only
        cases unescape (trimBy isXmlBlank text) <;> rfl

private theorem length_opened_addText (progress : Progress) (text : List Char) :
    (progress.addText text).opened.length = progress.opened.length := by
  obtain ⟨opened, root⟩ := progress
  cases opened <;> rfl

end Progress

def Markup.opens : Markup → Bool
  | .opening _ => true
  | _ => false

def Markup.closes : Markup → Bool
  | .closing _ => true
  | _ => false

namespace Progress

variable {source source' : Source} {progress p q next : Progress} {token : Token}

private theorem length_opened_attach {offset : Nat} {e : Element}
    (attached : progress.attach source offset e = .ok next) :
    next.opened.length = progress.opened.length := by
  cases attached_of_attach attached <;> rfl

private theorem length_opened_step (stepped : progress.step source token = .ok next) :
    next.opened.length + token.markup.closes.toNat =
      progress.opened.length + token.markup.opens.toNat := by
  cases stepped_of_step stepped with
  | opening markup started =>
      rw [markup]
      rfl
  | single markup started attached =>
      rw [markup, length_opened_attach attached]
      rfl
  | closing markup opened named attached =>
      rw [markup, length_opened_attach attached, opened]
      rfl
  | within noTag added =>
      rw [length_opened_addText]
      cases markup : token.markup <;> rw [markup] at noTag <;> first | rfl | cases noTag

private theorem run_plain_eq_ok {text rest : List Char} (plain : '<' ∉ text)
    (ended : ∀ c, rest.head? = some c → c = '<') {offset : Nat} {root : Element}
    (ran : progress.run source (scanFrom offset (text ++ rest)) = .ok root) :
    ∃ told stop blanks, progress.told text = .ok told ∧ (∀ c ∈ blanks, isXmlBlank c = true) ∧
      (progress.addText told).run source (scanFrom stop (blanks ++ rest)) = .ok root := by
  obtain ⟨place, stop, blanks, blank, same⟩ := run_plain source progress plain ended offset
  rw [same] at ran
  cases resolved : progress.told text with
  | error fault =>
      rw [resolved] at ran
      cases ran
  | ok told =>
      rw [resolved] at ran
      exact ⟨told, stop, blanks, rfl, blank, ran⟩

private theorem run_plain_of_told (source : Source) {text told : List Char} (plain : '<' ∉ text)
    (resolved : progress.told text = .ok told) (rest : List Char)
    (ended : ∀ c, rest.head? = some c → c = '<') (offset : Nat) :
    ∃ stop blanks, (∀ c ∈ blanks, isXmlBlank c = true) ∧
      progress.run source (scanFrom offset (text ++ rest)) =
        (progress.addText told).run source (scanFrom stop (blanks ++ rest)) := by
  obtain ⟨place, stop, blanks, blank, same⟩ := run_plain source progress plain ended offset
  rw [resolved] at same
  exact ⟨stop, blanks, blank, same⟩

/-- A text and a piece of markup behind it lead from alike progress to alike progress, wherever
they stand and whatever follows them. -/
theorem run_piece {f : String → String} (joins : Joins f) (alike : Alike f p q)
    (counted : p.letters = q.letters) {text content more : List Char} {markup : Markup}
    (plain : '<' ∉ text) (piece : Piece content markup) {offset : Nat} {root : Element}
    (ran : p.run source (scanFrom offset (text ++ ('<' :: content ++ '>' :: more))) = .ok root)
    (source' : Source) (more' : List Char) (offset' : Nat) :
    ∃ next next' stop stop', Alike f next next' ∧ next.letters = next'.letters ∧
      next.opened.length + markup.closes.toNat = p.opened.length + markup.opens.toNat ∧
      next.run source (scanFrom stop more) = .ok root ∧
      q.run source' (scanFrom offset' (text ++ ('<' :: content ++ '>' :: more'))) =
        next'.run source' (scanFrom stop' more') := by
  have around : ∀ blanks more, blanks ++ ('<' :: content ++ '>' :: more) =
      blanks ++ '<' :: content ++ '>' :: more := by simp
  have ended : ∀ more c, ('<' :: content ++ '>' :: more).head? = some c → c = '<' := by
    rintro more c ⟨⟩
    rfl
  -- The text is told the same on both sides, then the markup takes the same step.
  obtain ⟨told, stop, blanks, resolved, blank, ran⟩ := run_plain_eq_ok plain (ended more) ran
  obtain ⟨stop', blanks', blank', same⟩ := run_plain_of_told source' plain
    ((addition_alike alike _).symm.trans resolved) ('<' :: content ++ '>' :: more')
    (ended more') offset'
  obtain ⟨token, stop, scanned, is⟩ := scanFrom_markup stop more blank (piece more)
  obtain ⟨token', stop', scanned', is'⟩ := scanFrom_markup stop' more' blank' (piece more')
  rw [around, scanned] at ran
  obtain ⟨next, stepped, ran⟩ := run_token_eq_ok ran
  obtain ⟨alikeText, countedText⟩ := addText_alike_letters joins alike told
  obtain ⟨next', stepped', alikeAfter, countedAfter⟩ :=
    step_alike joins source' alikeText (is.trans is'.symm) stepped
  have depth := length_opened_step stepped
  rw [length_opened_addText, is] at depth
  refine ⟨next, next', stop, stop', alikeAfter, by omega, depth, ran, ?_⟩
  rw [same, around, scanned', run_token, stepped']
  rfl

private theorem countP_append_singleton {α : Type} (test : α → Bool) (xs : List α) (x : α) :
    (xs ++ [x]).countP test = xs.countP test + (test x).toNat := by
  rw [List.countP_append, List.countP_singleton]
  cases test x <;> rfl

private theorem run_passes {f : String → String} (joins : Joins f) {front more : List Char}
    {markups : List Markup} (passed : Passes front markups) {offset : Nat} {root : Element}
    (ran : empty.run source (scanFrom offset (front ++ more)) = .ok root) (source' : Source)
    (more' : List Char) (offset' : Nat) :
    ∃ q q' stop stop', Alike f q q' ∧ q.letters = q'.letters ∧
      q.opened.length + markups.countP Markup.closes = markups.countP Markup.opens ∧
      q.run source (scanFrom stop more) = .ok root ∧
      empty.run source' (scanFrom offset' (front ++ more')) =
        q'.run source' (scanFrom stop' more') := by
  induction passed generalizing more more' with
  | nil => exact ⟨empty, empty, offset, offset', Alike.refl f empty, rfl, rfl, ran, rfl⟩
  | @snoc front text content markups markup passed plain piece ih =>
      have shape : ∀ more, front ++ text ++ '<' :: content ++ ['>'] ++ more =
          front ++ (text ++ ('<' :: content ++ '>' :: more)) := by simp
      rw [shape] at ran
      obtain ⟨p, p', stop, stop', alike, counted, depth, ran, same⟩ :=
        ih ran (text ++ ('<' :: content ++ '>' :: more'))
      obtain ⟨q, q', stop, stop', alike, counted, depthAfter, ran, same'⟩ :=
        run_piece joins alike counted plain piece ran source' more' stop'
      refine ⟨q, q', stop, stop', alike, counted, ?_, ran, by rw [shape, same, same']⟩
      rw [countP_append_singleton, countP_append_singleton]
      omega

end Progress

theorem Passes.tail {c : Char} {cs : List Char} {markups : List Markup} (noMarkup : c ≠ '<')
    (passed : Passes (c :: cs) markups) : Passes cs markups := by
  generalize whole : c :: cs = front at passed
  induction passed generalizing cs with
  | nil => cases whole
  | @snoc front text content markups markup passed plain piece ih =>
      cases front with
      | cons d front =>
          cases whole
          exact .snoc (ih rfl) plain piece
      | nil =>
          cases text with
          | nil =>
              cases whole
              contradiction
          | cons d text =>
              cases whole
              rw [List.mem_cons, not_or] at plain
              exact passed.snoc plain.2 piece

theorem Passes.ne_nil {front : List Char} {markups : List Markup} (passed : Passes front markups)
    (some : markups ≠ []) : front ≠ [] := by
  cases passed with
  | nil => contradiction
  | snoc => simp

private theorem Passes.exists_reading {front : List Char} {markups : List Markup}
    (passed : Passes front markups) (some : markups ≠ []) :
    ∃ inside, Passes inside markups ∧ ∀ rest, ∃ source,
      readChars (front ++ rest) = Progress.empty.run source (scanFrom 0 (inside ++ rest)) := by
  obtain ⟨c, cs, rfl⟩ := List.exists_cons_of_ne_nil (passed.ne_nil some)
  by_cases mark : c = '\uFEFF'
  · refine ⟨cs, passed.tail (by rw [mark]; decide), fun rest => ⟨.ofText (c :: cs ++ rest), ?_⟩⟩
    simp [readChars, scan, Source.body, Source.ofText, mark]
  · refine ⟨c :: cs, passed, fun rest => ⟨.ofText (c :: cs ++ rest), ?_⟩⟩
    simp [readChars, scan, Source.body, Source.ofText, mark]

/-- A text that ends in the content of an element, in no markup and no reference, and what stands
in it behind the last markup. -/
inductive EndsInContent : List Char → List Char → Prop
  | intro {front text : List Char} {markups : List Markup} (passed : Passes front markups)
      (inside : markups.countP Markup.closes < markups.countP Markup.opens)
      (plain : '<' ∉ text) (ends : ReferencesEnd text) : EndsInContent (front ++ text) text

section

variable {f : String → String} {text rest comment : List Char} {root : Element}

namespace Progress

private theorem run_comment (joins : Joins f) (noDashes : ¬['-', '-'] <:+: comment)
    (plain : '<' ∉ text) (ends : ReferencesEnd text)
    (lost : f (String.ofList (seam text (rest.takeWhile (· ≠ '<')))) = "")
    {source source' : Source} {p q : Progress} (alike : Alike f p q)
    (counted : p.letters = q.letters) (occupied : p.opened ≠ []) {offset : Nat}
    (ran : p.run source (scanFrom offset (text ++ rest)) = .ok root) (offset' : Nat) :
    ∃ root', q.run source' (scanFrom offset'
        (text ++ ('<' :: ("!--".toList ++ comment ++ "--".toList) ++ '>' :: rest))) = .ok root' ∧
      root.withTexts f = root'.withTexts f ∧
      root.letters = root'.letters + (seam text (rest.takeWhile (· ≠ '<'))).length := by
  have occupied' : q.opened ≠ [] := by
    intro none
    have same := alike.opened.length_eq
    rw [none, List.length_nil, List.length_eq_zero_iff] at same
    exact occupied same
  -- The text goes on up to the next markup.
  have plainNext : '<' ∉ rest.takeWhile (· ≠ '<') := fun member => by
    simpa using List.mem_takeWhile_imp member
  have endedNext : ∀ c, (rest.dropWhile (· ≠ '<')).head? = some c → c = '<' := fun c head => by
    simpa using head?_dropWhile head
  have split : rest.takeWhile (· ≠ '<') ++ rest.dropWhile (· ≠ '<') = rest :=
    List.takeWhile_append_dropWhile
  generalize rest.takeWhile (· ≠ '<') = following at plainNext split lost ⊢
  generalize rest.dropWhile (· ≠ '<') = behind at endedNext split
  subst split
  have plainAll : '<' ∉ text ++ following := by
    rw [List.mem_append, not_or]
    exact ⟨plain, plainNext⟩
  rw [← List.append_assoc] at ran
  obtain ⟨told, stop, blanks, resolved, blank, ran⟩ := run_plain_eq_ok plainAll endedNext ran
  rw [told_eq occupied] at resolved
  obtain ⟨first, second, resolvedFirst, resolvedSecond, rfl⟩ :=
    exists_of_unescape_trimBy_append ends resolved
  -- With the comment, one part is told before it and the other behind it.
  obtain ⟨stopText, before, blankBefore, ranText⟩ := run_plain_of_told source' plain
    (told_eq occupied' text ▸ resolvedFirst)
    ('<' :: ("!--".toList ++ comment ++ "--".toList) ++ '>' :: (following ++ behind))
    (by rintro c ⟨⟩; rfl) offset'
  obtain ⟨token, stopComment, scanned, isAside⟩ := scanFrom_markup stopText (following ++ behind)
    blankBefore (piece_comment noDashes (following ++ behind))
  have occupiedFirst : (q.addText first).opened ≠ [] := by
    rw [← List.length_pos_iff, length_opened_addText, List.length_pos_iff]
    exact occupied'
  obtain ⟨stop', after, blankAfter, ranFollowing⟩ := run_plain_of_told source' plainNext
    (told_eq occupiedFirst following ▸ resolvedSecond) behind endedNext stopComment
  have alikeTexts : Alike f (p.addText (first ++ seam text following ++ second))
      ((q.addText first).addText second) := by
    rw [addText_addText]
    refine addText_alike joins alike ?_
    simp only [String.ofList_append, joins.append, lost, String.append_empty]
  have alikeMarkup : (scanFrom stop (blanks ++ behind)).Alike
      (scanFrom stop' (after ++ behind)) := by
    refine alike_scanFrom ?_ stop stop'
    rw [List.dropWhile_append_of_pos blank, List.dropWhile_append_of_pos blankAfter]
  obtain ⟨root', ran', same, countedAll⟩ :=
    run_alike joins source' alikeMarkup alikeTexts ran
  refine ⟨root', ?_, same, ?_⟩
  · rw [ranText, ← List.append_assoc, scanned, run_token, step_aside isAside]
    exact ranFollowing.trans ran'
  · simp only [letters_addText occupied, letters_addText occupiedFirst, letters_addText occupied',
      List.length_append] at countedAll
    omega

end Progress

/-- A comment loses the blanks around it. What forgets these does not see the comment. -/
theorem readChars_comment (joins : Joins f) {before : List Char}
    (place : EndsInContent before text) (noDashes : ¬['-', '-'] <:+: comment)
    (lost : f (String.ofList (seam text (rest.takeWhile (· ≠ '<')))) = "")
    (accepted : readChars (before ++ rest) = .ok root) :
    ∃ root', readChars (before ++ "<!--".toList ++ comment ++ "-->".toList ++ rest) = .ok root' ∧
      root.withTexts f = root'.withTexts f ∧
      root.letters = root'.letters + (seam text (rest.takeWhile (· ≠ '<'))).length := by
  obtain @⟨front, text, markups, passed, inside, plain, ends⟩ := place
  have some : markups ≠ [] := by
    rintro rfl
    simp at inside
  obtain ⟨body, passedBody, reading⟩ := passed.exists_reading some
  have shape : front ++ text ++ "<!--".toList ++ comment ++ "-->".toList ++ rest =
      front ++ (text ++ ('<' :: ("!--".toList ++ comment ++ "--".toList) ++ '>' :: rest)) := by
    simp
  obtain ⟨source, read⟩ := reading (text ++ rest)
  obtain ⟨source', read'⟩ :=
    reading (text ++ ('<' :: ("!--".toList ++ comment ++ "--".toList) ++ '>' :: rest))
  rw [List.append_assoc, read] at accepted
  rw [shape, read']
  obtain ⟨p, q, stop, stop', alike, counted, depth, ran, same⟩ :=
    Progress.run_passes joins passedBody accepted source' _ 0
  have occupied : p.opened ≠ [] := by
    rw [← List.length_pos_iff]
    omega
  rw [same]
  exact Progress.run_comment joins noDashes plain ends lost alike counted occupied ran stop'

end

def unblanked (s : String) : String :=
  String.ofList (s.toList.filter (!isXmlBlank ·))

private theorem joins_unblanked : Joins unblanked :=
  ⟨rfl, fun s t => by simp [unblanked]⟩

private theorem unblanked_seam (u v : List Char) : unblanked (String.ofList (seam u v)) = "" := by
  have nothing : (seam u v).filter (!isXmlBlank ·) = [] := by
    rw [List.filter_eq_nil_iff]
    intro c member
    simp [isXmlBlank_of_mem_seam member]
  rw [unblanked, String.toList_ofList, nothing]

/-- With a comment put into the content of an element a text is read to the same tree, except that
the blanks around the comment are lost where it parts a text in two. -/
theorem read_comment {a b comment : String} {text : List Char}
    (place : EndsInContent a.toList text) (noDashes : ¬['-', '-'] <:+: comment.toList)
    {root : Element} (accepted : read (a ++ b) = .ok root) :
    ∃ root', read (a ++ "<!--" ++ comment ++ "-->" ++ b) = .ok root' ∧
      root'.withTexts unblanked = root.withTexts unblanked ∧
      root.letters = root'.letters + (seam text (b.toList.takeWhile (· ≠ '<'))).length ∧
      (root'.unplaced = root.unplaced ↔ seam text (b.toList.takeWhile (· ≠ '<')) = []) := by
  simp only [read, String.toList_append] at accepted ⊢
  obtain ⟨root', read', same, counted⟩ :=
    readChars_comment joins_unblanked place noDashes (unblanked_seam _ _) accepted
  refine ⟨root', read', same.symm, counted, fun equal => ?_, fun none => ?_⟩
  · have letters := congrArg Element.letters equal
    rw [Element.letters_unplaced, Element.letters_unplaced] at letters
    rw [← List.length_eq_zero_iff]
    omega
  · have lost : String.ofList (seam text (b.toList.takeWhile (· ≠ '<'))) = "" := by rw [none]
    obtain ⟨root'', read'', same, -⟩ := readChars_comment joins_id place noDashes lost accepted
    obtain rfl := Except.ok.inj (read'.symm.trans read'')
    exact same.symm

private theorem endsInContent_words :
    EndsInContent "<a k='>'>&lt;<!-- <b> -->CTD ".toList "CTD ".toList := by
  have opening : Piece "a k='>'".toList (.opening "a k='>'".toList) :=
    (piece_of_readMarkup (show readMarkup "a k='>'>".toList = _ by decide)).1
  have aside : Piece "!-- <b> --".toList .aside :=
    (piece_of_readMarkup (show readMarkup "!-- <b> -->".toList = _ by decide)).1
  have first := Passes.nil.snoc (show '<' ∉ [] by simp) opening
  have second := first.snoc (show '<' ∉ "&lt;".toList by decide) aside
  have place := EndsInContent.intro second (by decide) (show '<' ∉ "CTD ".toList by decide)
    (referencesEnd_of_plain (by decide))
  simpa using place

theorem read_comment_words :
    ∃ root, read ("<a k='>'>&lt;<!-- <b> -->CTD " ++ "cast</a>") = .ok root ∧
      root.text = "<CTD cast" ∧
      ∃ root', read ("<a k='>'>&lt;<!-- <b> -->CTD " ++ "<!--" ++ "->" ++ "-->" ++ "cast</a>") =
        .ok root' ∧
      root'.withTexts unblanked = root.withTexts unblanked ∧
      root.letters = root'.letters + (seam "CTD ".toList "cast".toList).length ∧
      (root'.unplaced = root.unplaced ↔ seam "CTD ".toList "cast".toList = []) := by
  obtain ⟨root, accepted, told⟩ := Recorded.exists_of_any
    (show (read ("<a k='>'>&lt;<!-- <b> -->CTD " ++ "cast</a>")).toOption.any
      (fun root => decide (root.text = "<CTD cast")) = true by decide +kernel)
  have noDashes : ¬['-', '-'] <:+: "->".toList := by decide
  exact ⟨root, accepted, told, read_comment endsInContent_words noDashes accepted⟩

/-- A comment between two words joins them. -/
theorem comment_joins_words :
    EndsInContent "<a k='>'>&lt;<!-- <b> -->CTD ".toList "CTD ".toList ∧
      ¬['-', '-'] <:+: "->".toList ∧
      ∃ root root', read ("<a k='>'>&lt;<!-- <b> -->CTD " ++ "cast</a>") = .ok root ∧
        read ("<a k='>'>&lt;<!-- <b> -->CTD " ++ "<!--" ++ "->" ++ "-->" ++ "cast</a>") =
          .ok root' ∧
        root.text = "<CTD cast" ∧ root'.text = "<CTDcast" := by
  obtain ⟨root, accepted, told⟩ := Recorded.exists_of_any
    (show (read ("<a k='>'>&lt;<!-- <b> -->CTD " ++ "cast</a>")).toOption.any
      (fun root => decide (root.text = "<CTD cast")) = true by decide +kernel)
  obtain ⟨root', accepted', told'⟩ := Recorded.exists_of_any
    (show (read ("<a k='>'>&lt;<!-- <b> -->CTD " ++ "<!--" ++ "->" ++ "-->" ++
      "cast</a>")).toOption.any (fun root => decide (root.text = "<CTDcast")) = true by
        decide +kernel)
  exact ⟨endsInContent_words, by decide, root, root', accepted, accepted', told, told'⟩

end ShoreMetadata.Xml
