import ShoreMetadata.Proofs.Xml.Mark
import ShoreMetadata.Proofs.Xml.Tree
import ShoreMetadata.Xml.Reader

/-! Reading what was written gives the same tree, on one line or indented, apart
from places and from blanks around texts. -/

namespace ShoreMetadata.Xml

open Text

/-- What the writer relies on: names are names, and no attribute stands twice. -/
structure Element.Named (e : Element) : Prop where
  tag : isName e.name.toList = true
  keys : ∀ a ∈ e.attributes, isAttributeName a.1.toList = true
  distinct : (e.attributes.map Prod.fst).Nodup

instance (e : Element) : Decidable e.Named :=
  decidable_of_iff
    (isName e.name.toList = true ∧ (∀ a ∈ e.attributes, isAttributeName a.1.toList = true) ∧
      (e.attributes.map Prod.fst).Nodup)
    ⟨fun ⟨tag, keys, distinct⟩ => ⟨tag, keys, distinct⟩,
      fun ⟨tag, keys, distinct⟩ => ⟨tag, keys, distinct⟩⟩

def textMarks (text : String) : List Mark :=
  match trimBy isBlank text.toList with
  | [] => []
  | content => [.text content]

private theorem Element.marks_single {e : Element} (childless : e.children = [])
    (noText : trimBy isBlank e.text.toList = []) :
    e.marks = [.single e.name e.attributes] := by
  obtain ⟨name, attributes, children, text, position⟩ := e
  cases childless
  rw [marks]
  exact noText

private theorem Element.marks_opening {e : Element}
    (filled : ¬(e.children = [] ∧ trimBy isBlank e.text.toList = [])) :
    e.marks = .opening e.name e.attributes ::
      (textMarks e.text ++ (childMarks e.children ++ [.closing e.name])) := by
  obtain ⟨name, attributes, children, text, position⟩ := e
  simp only at filled
  cases content : trimBy isBlank text.toList with
  | nil =>
      have inhabited : children = [] → False := fun childless => filled ⟨childless, content⟩
      rw [marks.eq_2 _ _ _ _ _ inhabited content, textMarks, content]
      rfl
  | cons first rest =>
      have hasText : trimBy isBlank text.toList = [] → False := by simp [content]
      rw [marks.eq_3 _ _ _ _ _ hasText fun _ => hasText, textMarks, content]
      rfl

private theorem Element.exists_first_mark (e : Element) :
    ∃ first more, e.marks = first :: more ∧ first.isText = false := by
  by_cases bare : e.children = [] ∧ trimBy isBlank e.text.toList = []
  · exact ⟨_, _, marks_single bare.1 bare.2, rfl⟩
  · exact ⟨_, _, marks_opening bare, rfl⟩

private theorem childMarks_map {f : Element → Element} {children : List Element}
    (same : ∀ child ∈ children, (f child).marks = child.marks) :
    childMarks (children.map f) = childMarks children := by
  induction children with
  | nil => rfl
  | cons child rest ih =>
      rw [List.forall_mem_cons] at same
      rw [List.map_cons, childMarks, childMarks, same.1, ih same.2]

private theorem Element.marks_settled (e : Element) : e.settled.marks = e.marks := by
  induction e using Element.induction with
  | step e ih =>
      have text : trimBy isBlank e.settled.text.toList = trimBy isBlank e.text.toList := by
        simp [settled, trim, trimBy_trimBy]
      have inside : childMarks e.settled.children = childMarks e.children := by
        rw [settled, children_withTexts]
        exact childMarks_map ih
      by_cases bare : e.children = [] ∧ trimBy isBlank e.text.toList = []
      · have childless : e.settled.children = [] := by simp [settled, bare.1]
        rw [marks_single childless (text.trans bare.2), marks_single bare.1 bare.2]
        simp [settled]
      · have filled : ¬(e.settled.children = [] ∧
            trimBy isBlank e.settled.text.toList = []) := by
          rw [text]
          simpa [settled] using bare
        rw [marks_opening filled, marks_opening bare, inside, textMarks, textMarks, text]
        simp [settled]

theorem write_settled (layout : Layout) (root : Element) :
    write layout root.settled = write layout root := by
  rw [write, write, writeChars, writeChars, root.marks_settled]

private theorem exists_next_mark (children : List Element) (name : String) (rest : List Mark) :
    ∃ next more, childMarks children ++ (.closing name :: rest) = next :: more ∧
      next.isText = false := by
  cases children with
  | nil => exact ⟨_, _, rfl, rfl⟩
  | cons child others =>
      obtain ⟨first, more, marks, noText⟩ := child.exists_first_mark
      rw [childMarks, marks]
      exact ⟨_, _, rfl, noText⟩

namespace Progress

def attached (progress : Progress) (e : Element) : Progress :=
  match progress.opened with
  | parent :: outer =>
    { progress with
      opened := { parent with element := parent.element.pushChild e } :: outer }
  | [] => { progress with root := some e }

/-- Another element may follow: there is one to put it in, or it is the root. -/
def Accepting (progress : Progress) : Prop :=
  progress.opened = [] → progress.root = none

private theorem attach_eq {progress : Progress} (accepting : progress.Accepting) (source : Source)
    (offset : Nat) (e : Element) :
    progress.attach source offset e = .ok (progress.attached e) := by
  obtain ⟨opened, root⟩ := progress
  cases opened with
  | nil =>
      cases accepting rfl
      rfl
  | cons parent outer => rfl

theorem run_token (source : Source) (progress : Progress) (token : Token) (rest : Tokens) :
    progress.run source (.token token rest) =
      (progress.step source token).bind fun progress => progress.run source rest := rfl

private theorem startElement_tagChars (source : Source) (offset : Nat) {e : Element}
    (named : e.Named) :
    startElement source offset (tagChars e.name e.attributes) =
      .ok ⟨e.name, e.attributes, [], "", source.locate offset⟩ := by
  rw [startElement, tagAttributes_tagChars named.tag named.keys named.distinct,
    tagName_tagChars named.tag, localName_name named.tag, String.ofList_toList]

private theorem endName_name {cs : List Char} (named : isName cs = true) : endName cs = cs := by
  have kept : dropTrailing isXmlBlank cs = cs :=
    dropTrailing_of_getLast fun c last =>
      isXmlBlank_of_isPlain (isPlain_of_mem_name named c (List.mem_of_getLast? last))
  unfold endName
  rw [kept]
  split <;> rfl

/-! One lemma for each mark: what it does to the progress. -/

section

variable {source : Source} {progress : Progress} {token : Token}

theorem step_aside (markup : token.markup = .aside) :
    progress.step source token = .ok progress := by
  rw [step, markup]

private theorem step_opening {e : Element} (named : e.Named)
    (markup : token.markup = (Mark.opening e.name e.attributes).markup) :
    progress.step source token = .ok { progress with
      opened := ⟨e.name.toList,
        ⟨e.name, e.attributes, [], "", source.locate (source.tagOffset token)⟩⟩ ::
          progress.opened } := by
  rw [step, markup]
  simp only [Mark.markup, startElement_tagChars _ _ named, tagName_tagChars named.tag]
  rfl

private theorem step_single {e : Element} (named : e.Named) (accepting : progress.Accepting)
    (markup : token.markup = (Mark.single e.name e.attributes).markup) :
    progress.step source token = .ok (progress.attached
      ⟨e.name, e.attributes, [], "", source.locate (source.tagOffset token)⟩) := by
  rw [step, markup]
  simp only [Mark.markup, startElement_tagChars _ _ named]
  exact attach_eq accepting _ _ _

private theorem step_text {content : List Char} {inner : OpenElement} {outer : List OpenElement}
    (opened : progress.opened = inner :: outer)
    (markup : token.markup = (Mark.text content).markup) :
    progress.step source token = .ok { progress with
      opened := { inner with element := { inner.element with
        text := inner.element.text ++ String.ofList content } } :: outer } := by
  rw [step, markup]
  simp only [Mark.markup, opened, unescape_escape, addText]

private theorem step_closing {name : String} {e : Element} {outer : List OpenElement}
    {root : Option Element} (named : isName name.toList = true)
    (accepting : Accepting ⟨outer, root⟩)
    (markup : token.markup = (Mark.closing name).markup) :
    step source ⟨⟨name.toList, e⟩ :: outer, root⟩ token = .ok (attached ⟨outer, root⟩ e) := by
  rw [step, markup]
  simp only [Mark.markup, closeElement, endName_name named, if_true]
  exact attach_eq accepting _ _ _

end

/-- From wherever its marks begin, an element is attached with the same content. -/
def Reads (source : Source) (e : Element) : Prop :=
  ∀ (progress : Progress) (offset : Nat) (cs : List Char) (rest : List Mark),
    progress.Accepting → Spaced (e.marks ++ rest) cs →
    ∃ (read : Element) (stop : Nat) (left : List Char),
      read.unplaced = e.settled ∧ Spaced rest left ∧
      progress.run source (scanFrom offset cs) =
        (progress.attached read).run source (scanFrom stop left)

section

variable {source : Source} {attributes : List (String × String)} {position : Position}

private theorem run_childMarks {children : List Element}
    (reads : ∀ child ∈ children, Reads source child) (key : List Char) (name text : String)
    (before : List Element) (outer : List OpenElement) (root : Option Element) (offset : Nat)
    (cs : List Char) (rest : List Mark) (spaced : Spaced (childMarks children ++ rest) cs) :
    ∃ (built : List Element) (stop : Nat) (left : List Char),
      built.map Element.unplaced = children.map Element.settled ∧ Spaced rest left ∧
      run source ⟨⟨key, ⟨name, attributes, before, text, position⟩⟩ :: outer, root⟩
          (scanFrom offset cs) =
        run source ⟨⟨key, ⟨name, attributes, before ++ built, text, position⟩⟩ :: outer, root⟩
          (scanFrom stop left) := by
  induction children generalizing before offset cs with
  | nil => exact ⟨[], offset, cs, rfl, spaced, by rw [List.append_nil]⟩
  | cons child more ih =>
      rw [childMarks, List.append_assoc] at spaced
      have accepting : Accepting
          ⟨⟨key, ⟨name, attributes, before, text, position⟩⟩ :: outer, root⟩ := by
        intro nothing
        cases nothing
      obtain ⟨read, stop, left, same, spacedMore, ran⟩ :=
        reads child (by simp) _ offset cs _ accepting spaced
      obtain ⟨built, stopMore, leftMore, sameMore, spacedRest, ranMore⟩ :=
        ih (fun child member => reads child (by simp [member])) (before ++ [read]) stop left
          spacedMore
      refine ⟨read :: built, stopMore, leftMore, by simp [same, sameMore], spacedRest, ?_⟩
      calc
        _ = run source
              ⟨⟨key, ⟨name, attributes, before ++ [read], text, position⟩⟩ :: outer, root⟩
              (scanFrom stop left) := ran
        _ = _ := ranMore
        _ = _ := by rw [List.append_assoc, List.singleton_append]

private theorem run_textMarks (key : List Char) (name text : String) (outer : List OpenElement)
    (root : Option Element) (offset : Nat) (cs : List Char) {next : Mark} {rest : List Mark}
    (noText : next.isText = false) (spaced : Spaced (textMarks text ++ next :: rest) cs) :
    ∃ (stop : Nat) (left : List Char),
      Spaced (next :: rest) left ∧
      run source ⟨⟨key, ⟨name, attributes, [], "", position⟩⟩ :: outer, root⟩
          (scanFrom offset cs) =
        run source ⟨⟨key, ⟨name, attributes, [], trim text, position⟩⟩ :: outer, root⟩
          (scanFrom stop left) := by
  cases content : trimBy isBlank text.toList with
  | nil =>
      rw [textMarks, content] at spaced
      refine ⟨offset, cs, spaced, ?_⟩
      rw [trim, content, String.ofList_nil]
  | cons first letters =>
      rw [textMarks, content] at spaced
      have trimmed : trimBy isBlank (first :: letters) = first :: letters := by
        rw [← content, trimBy_trimBy]
      obtain ⟨token, stop, left, scanned, markup, spacedRest⟩ :=
        Spaced.scan spaced ⟨List.cons_ne_nil _ _, trimmed⟩
          (fun _ => ⟨next, rest, rfl, noText⟩) offset
      refine ⟨stop, left, spacedRest, ?_⟩
      rw [scanned, run_token, step_text rfl markup, trim, content]
      simp only [String.empty_append]
      rfl

end

theorem reads {source : Source} {e : Element} (named : e.Everywhere Element.Named) :
    Reads source e := by
  induction named with
  | @intro e here inside ih =>
      intro progress offset cs rest accepting spaced
      by_cases bare : e.children = [] ∧ trimBy isBlank e.text.toList = []
      · rw [Element.marks_single bare.1 bare.2] at spaced
        obtain ⟨token, stop, left, scanned, markup, spacedRest⟩ :=
          Spaced.scan spaced ⟨here.tag, here.keys⟩ (fun isText => by cases isText) offset
        refine ⟨⟨e.name, e.attributes, [], "", source.locate (source.tagOffset token)⟩,
          stop, left, ?_, spacedRest, ?_⟩
        · rw [Element.ext_iff]
          simp [Element.unplaced, Element.settled, bare.1, trim, bare.2]
        · rw [scanned, run_token, step_single here accepting markup]
          rfl
      · rw [Element.marks_opening bare, List.cons_append, List.append_assoc,
          List.append_assoc, List.singleton_append] at spaced
        obtain ⟨opening, stop, left, scanned, markup, spacedText⟩ :=
          Spaced.scan spaced ⟨here.tag, here.keys⟩ (fun isText => by cases isText) offset
        obtain ⟨next, more, following, noText⟩ :=
          exists_next_mark e.children e.name rest
        rw [following] at spacedText
        obtain ⟨stopText, leftText, spacedChildren, ranText⟩ :=
          run_textMarks e.name.toList e.name e.text progress.opened progress.root stop left
            noText spacedText
        rw [← following] at spacedChildren
        obtain ⟨built, stopChildren, leftChildren, same, spacedClosing, ranChildren⟩ :=
          run_childMarks ih e.name.toList e.name (trim e.text) [] progress.opened progress.root
            stopText leftText _ spacedChildren
        obtain ⟨closing, stopClosing, leftClosing, scannedClosing, markupClosing, spacedRest⟩ :=
          Spaced.scan spacedClosing here.tag (fun isText => by cases isText) stopChildren
        refine ⟨⟨e.name, e.attributes, built, trim e.text,
          source.locate (source.tagOffset opening)⟩, stopClosing, leftClosing, ?_, spacedRest, ?_⟩
        · have kept : built.map (Element.withTexts id) =
              e.children.map (Element.withTexts trim) := same
          rw [Element.ext_iff]
          simpa [Element.unplaced, Element.settled] using kept
        · rw [scanned, run_token, step_opening here markup]
          calc
            _ = _ := ranText
            _ = _ := ranChildren
            _ = _ := by
              rw [scannedClosing, run_token,
                step_closing here.tag accepting markupClosing]
              rfl

private theorem run_done (source : Source) {blanks : List Char} (offset : Nat) (root : Element)
    (blank : ∀ c ∈ blanks, isXmlBlank c = true) :
    run source ⟨[], some root⟩ (scanFrom offset blanks) = .ok root := by
  have nothing : blanks.dropWhile isXmlBlank = [] := List.dropWhile_eq_nil_iff.mpr blank
  rw [scanFrom]
  split
  · rfl
  · rename_i found
    rw [nothing] at found
    cases found

end Progress

def documentMarks (layout : Layout) (e : Element) : List Mark :=
  if layout.declaration then .declaration :: e.marks else e.marks

private theorem spaced_writeChars (layout : Layout) (e : Element) :
    Spaced (documentMarks layout e) (writeChars layout e) := by
  change Spaced _ (if layout.pretty then indented 0 false (documentMarks layout e)
    else (documentMarks layout e).flatMap Mark.chars)
  split
  · exact Spaced.indented 0 false (documentMarks layout e)
  · exact Spaced.chars (documentMarks layout e)

private theorem body_writeChars (layout : Layout) (e : Element) :
    (Source.ofText (writeChars layout e)).body = writeChars layout e := by
  obtain ⟨first, more, marks, noText⟩ :
      ∃ first more, documentMarks layout e = first :: more ∧ first.isText = false := by
    unfold documentMarks
    split
    · exact ⟨_, _, rfl, rfl⟩
    · exact e.exists_first_mark
  have spaced := spaced_writeChars layout e
  rw [marks] at spaced
  have unmarked : decide ((writeChars layout e).head? = some '\uFEFF') = false := by
    simpa using spaced.head?_ne noText (by decide) (by decide)
  rw [Source.ofText, Source.body]
  simp only [unmarked, Bool.false_eq_true, if_false]

theorem read_write (layout : Layout) {e : Element} (named : e.Everywhere Element.Named) :
    ∃ read, Xml.read (write layout e) = .ok read ∧ read.unplaced = e.settled := by
  rw [write, Xml.read, String.toList_ofList, readChars, scan, body_writeChars]
  have spaced := spaced_writeChars layout e
  obtain ⟨offset, cs, spacedRoot, ran⟩ : ∃ offset cs, Spaced (e.marks ++ []) cs ∧
      Progress.empty.run (Source.ofText (writeChars layout e)) (scanFrom 0 (writeChars layout e)) =
        Progress.empty.run (Source.ofText (writeChars layout e)) (scanFrom offset cs) := by
    rw [List.append_nil]
    unfold documentMarks at spaced
    split at spaced
    · obtain ⟨token, stop, left, scanned, markup, rest⟩ :=
        Spaced.scan spaced trivial (fun isText => by cases isText) 0
      refine ⟨stop, left, rest, ?_⟩
      rw [scanned, Progress.run_token, Progress.step_aside markup]
      rfl
    · exact ⟨0, _, spaced, rfl⟩
  obtain ⟨read, stop, left, same, ended, ranRoot⟩ :=
    Progress.reads named Progress.empty offset cs [] (fun _ => rfl) spacedRoot
  obtain ⟨blank⟩ | _ := ended
  exact ⟨read, by rw [ran, ranRoot]; exact Progress.run_done _ _ _ blank, same⟩

/-- Trees without blanks around their texts are read as they were written, whatever
the layout. -/
theorem unplaced_read_write (layout : Layout) {e : Element}
    (named : e.Everywhere Element.Named)
    (trimmed : e.Everywhere fun x => trim x.text = x.text) :
    (Xml.read (write layout e)).map Element.unplaced = .ok e.unplaced := by
  obtain ⟨read, succeeded, same⟩ := read_write layout named
  rw [succeeded, Except.map, same, Element.settled_eq_unplaced trimmed]

theorem unplaced_read_write_markup :
    let inside : Element := ⟨"b-1", [("x:key", "a\n<&>'\""), ("key", "")], [], "]]> é", .none⟩
    let e : Element := ⟨"A", [], [inside, .ofName "c", inside], "1 < 2\n& 3", .none⟩
    (Xml.read (write { pretty := true } e)).map Element.unplaced = .ok e.unplaced ∧
      (Xml.read (write { pretty := false, declaration := false } e)).map Element.unplaced
        = .ok e.unplaced :=
  ⟨unplaced_read_write _ (by decide +kernel) (by decide +kernel),
    unplaced_read_write _ (by decide +kernel) (by decide +kernel)⟩

end ShoreMetadata.Xml
