import ShoreMetadata.Proofs.Import.Recorded
import ShoreMetadata.Proofs.Xml.Piece
import ShoreMetadata.Proofs.Xml.Position
import ShoreMetadata.Proofs.Xml.Step

/-! The elements of a tree that was read, in document order: the place of each is where its start
tag stands in the text. -/

namespace ShoreMetadata.Xml

open Text

namespace Element

mutual
/-- An element and all elements inside it, each before those inside it. -/
def inOrder : Element → List Element
  | ⟨name, attributes, children, text, position⟩ =>
    ⟨name, attributes, children, text, position⟩ :: allInOrder children

def allInOrder : List Element → List Element
  | [] => []
  | child :: rest => child.inOrder ++ allInOrder rest
end

private theorem allInOrder_eq_flatMap (children : List Element) :
    allInOrder children = children.flatMap inOrder := by
  induction children with
  | nil => rfl
  | cons child rest ih => rw [allInOrder, ih, List.flatMap_cons]

theorem inOrder_eq (e : Element) : e.inOrder = e :: e.children.flatMap inOrder := by
  cases e
  rw [inOrder, allInOrder_eq_flatMap]

def bare (e : Element) : Element :=
  { e with children := [], text := "" }

def heads (e : Element) : List Element :=
  e.inOrder.map bare

private theorem heads_eq (e : Element) : e.heads = e.bare :: e.children.flatMap heads := by
  rw [heads, inOrder_eq, List.map_cons, List.map_flatMap]
  rfl

private theorem heads_pushChild (e child : Element) :
    (e.pushChild child).heads = e.heads ++ child.heads := by
  simp [heads_eq, pushChild, bare]

end Element

namespace Progress

def heads (progress : Progress) : List Element :=
  (progress.root.toList ++ progress.opened.reverse.map OpenElement.element).flatMap Element.heads

variable {source : Source} {progress next : Progress} {token : Token}

private theorem heads_cons (inner : OpenElement) (outer : List OpenElement)
    (root : Option Element) :
    heads ⟨inner :: outer, root⟩ = heads ⟨outer, root⟩ ++ inner.element.heads := by
  simp [heads]

private theorem heads_attach {offset : Nat} {e : Element}
    (attached : progress.attach source offset e = .ok next) :
    next.heads = progress.heads ++ e.heads := by
  cases attached_of_attach attached with
  | child => rw [heads_cons, heads_cons, Element.heads_pushChild, List.append_assoc]
  | root => simp [heads]

private theorem heads_addText (progress : Progress) (text : List Char) :
    (progress.addText text).heads = progress.heads := by
  obtain ⟨opened, root⟩ := progress
  cases opened with
  | nil => rfl
  | cons inner outer =>
      rw [addText, heads_cons, heads_cons, Element.heads_eq, Element.heads_eq]
      rfl

private theorem heads_of_startElement {offset : Nat} {tag : List Char} {e : Element}
    (started : startElement source offset tag = .ok e) : e.heads = [e] := by
  obtain ⟨attributes, -, rfl⟩ := startElement_eq_ok started
  rfl

end Progress

def Markup.startTag? : Markup → Option (List Char)
  | .opening tag | .single tag => some tag
  | _ => none

namespace Progress

variable {source : Source} {progress next : Progress} {token : Token}

/-- A start tag tells of one element more, in the place where it was looked for, and nothing else
does. -/
theorem heads_step (stepped : progress.step source token = .ok next) :
    next.heads = progress.heads ∨ ∃ tag e, token.markup.startTag? = some tag ∧
      startElement source (source.tagOffset token) tag = .ok e ∧
      next.heads = progress.heads ++ [e] := by
  cases stepped_of_step stepped with
  | @opening tag e markup started =>
      refine .inr ⟨tag, e, by rw [markup]; rfl, started, ?_⟩
      rw [heads_cons, heads_of_startElement started]
  | @single tag e _ markup started attached =>
      refine .inr ⟨tag, e, by rw [markup]; rfl, started, ?_⟩
      rw [heads_attach attached, heads_of_startElement started]
  | @closing _ inner outer _ _ opened _ attached =>
      obtain ⟨_, root⟩ := progress
      cases opened
      refine .inl ?_
      rw [heads_attach attached, heads_cons]
  | @within text => exact .inl (progress.heads_addText text)

end Progress

/-- At an offset of a text, in no other markup, stands the start tag of an element: after the `<`
the name of the element, alone or behind a prefix that ends in a colon, and its attributes. -/
inductive OpensAt (text : List Char) (e : Element) (offset : Nat) : Prop
  | intro {front between content tag space after ending : List Char} {markups : List Markup}
      {markup : Markup} (split : text = front ++ between ++ '<' :: tag ++ ending)
      (place : byteLength (front ++ between) = offset) (passed : Passes front markups)
      (plain : '<' ∉ between) (read : readMarkup (tag ++ ending) = .ok (content, markup))
      (starts : markup.startTag? = some tag) (named : tag = space ++ e.name.toList ++ after)
      (alone : space = [] ∨ space.getLast? = some ':')
      (ended : ∀ c, after.head? = some c → isXmlBlank c = true)
      (attributes : tagAttributes tag = .ok e.attributes)

private theorem opensAt_bare {text : List Char} {e : Element} {offset : Nat} :
    OpensAt text e.bare offset ↔ OpensAt text e offset := by
  constructor
  all_goals
    rintro ⟨split, place, passed, plain, read, starts, named, alone, ended, attributes⟩
    exact ⟨split, place, passed, plain, read, starts, named, alone, ended, attributes⟩

private theorem exists_space_of_localName (name : List Char) :
    ∃ space, name = space ++ localName name ∧ (space = [] ∨ space.getLast? = some ':') := by
  have whole : name.takeWhile (· ≠ ':') ++ name.dropWhile (· ≠ ':') = name :=
    List.takeWhile_append_dropWhile
  unfold localName
  split
  · exact ⟨[], rfl, .inl rfl⟩
  · rename_i c cs found
    have colon : c = ':' := by
      have first : (name.dropWhile (· ≠ ':')).head? = some c := by rw [found]; rfl
      simpa using head?_dropWhile first
    subst colon
    refine ⟨name.takeWhile (· ≠ ':') ++ [':'], ?_, .inr (by simp)⟩
    rw [found] at whole
    simpa using whole.symm

private theorem readTag_of_startTag {cs content tag : List Char} {markup : Markup}
    (read : readMarkup cs = .ok (content, markup)) (starts : markup.startTag? = some tag) :
    readTag cs = .ok (content, markup) := by
  unfold readMarkup at read
  split at read
  case h_5 => cases read
  case h_7 => exact read
  all_goals
    simp only [readCData, readComment, readDoctype, readInstruction] at read
    (repeat' split at read) <;> cases read
    cases starts

private theorem exists_ending_of_startTag {cs content tag : List Char} {markup : Markup}
    (read : readMarkup cs = .ok (content, markup)) (starts : markup.startTag? = some tag) :
    ∃ ending, cs = tag ++ ending := by
  obtain ⟨_, rest, split⟩ := piece_of_readMarkup read
  have asTag := readTag_of_startTag read starts
  unfold readTag at asTag
  split at asTag
  · cases asTag
    unfold tagMarkup at starts
    split at starts
    · cases starts
    · split at starts
      · rename_i last
        cases starts
        have whole := List.dropLast_append_getLast? '/' last
        exact ⟨'/' :: '>' :: rest, by rw [split, ← whole]; simp⟩
      · cases starts
        exact ⟨'>' :: rest, split⟩
  · cases asTag

private theorem opensAt_of_startElement {source : Source}
    {front between tag ending content : List Char}
    {markups : List Markup} {markup : Markup} {offset : Nat} {e : Element} {text : List Char}
    (split : text = front ++ between ++ '<' :: tag ++ ending) (passed : Passes front markups)
    (plain : '<' ∉ between) (read : readMarkup (tag ++ ending) = .ok (content, markup))
    (starts : markup.startTag? = some tag)
    (started : Progress.startElement source offset tag = .ok e) :
    OpensAt text e (byteLength (front ++ between)) := by
  have whole : tagName tag ++ tag.dropWhile (!isXmlBlank ·) = tag :=
    List.takeWhile_append_dropWhile
  obtain ⟨space, spaced, alone⟩ := exists_space_of_localName (tagName tag)
  obtain ⟨attributes, told, rfl⟩ := Progress.startElement_eq_ok started
  have named : tag = space ++ (String.ofList (localName (tagName tag))).toList ++
      tag.dropWhile (!isXmlBlank ·) := by
    rw [String.toList_ofList, ← spaced, whole]
  refine .intro split rfl passed plain read starts named alone (fun c first => ?_) told
  simpa using head?_dropWhile first

private theorem position_of_startElement {source : Source} {offset : Nat} {tag : List Char}
    {e : Element} (started : Progress.startElement source offset tag = .ok e) :
    e.position = source.locate offset := by
  obtain ⟨attributes, -, rfl⟩ := Progress.startElement_eq_ok started
  rfl

/-- Elements stand where their places tell, in this order and before an offset. -/
structure Placed (text : List Char) (bound : Nat) (heads : List Element) : Prop where
  opens : ∀ e ∈ heads, OpensAt text e (e.position.offset text)
  ascending : (heads.map (·.position.offset text)).Pairwise (· < ·)
  below : ∀ e ∈ heads, e.position.offset text < bound

namespace Placed

variable {text : List Char} {bound : Nat} {heads : List Element}

theorem mono (placed : Placed text bound heads) {later : Nat} (le : bound ≤ later) :
    Placed text later heads :=
  ⟨placed.opens, placed.ascending, fun e member => (placed.below e member).trans_le le⟩

theorem snoc (placed : Placed text bound heads) {e : Element} {offset stop : Nat}
    (opens : OpensAt text e offset) (there : e.position.offset text = offset)
    (after : bound ≤ offset) (before : offset < stop) : Placed text stop (heads ++ [e]) := by
  refine ⟨?_, ?_, ?_⟩
  · rw [List.forall_mem_append, List.forall_mem_singleton]
    exact ⟨placed.opens, there ▸ opens⟩
  · rw [List.map_append, List.pairwise_append]
    refine ⟨placed.ascending, List.pairwise_singleton _ _, ?_⟩
    simp only [List.forall_mem_map, List.map_singleton, List.forall_mem_singleton]
    intro other member
    have earlier := placed.below other member
    omega
  · rw [List.forall_mem_append, List.forall_mem_singleton]
    refine ⟨fun other member => ?_, there ▸ before⟩
    have earlier := placed.below other member
    omega

end Placed

theorem dropBytes_append (front rest : List Char) :
    Source.dropBytes (byteLength front) (front ++ rest) = rest := by
  induction front with
  | nil => cases rest <;> rfl
  | cons c cs ih =>
      have some := c.utf8Size_pos
      obtain ⟨n, size⟩ : ∃ n, byteLength (c :: cs) = n + 1 :=
        Nat.exists_eq_add_one.mpr (Nat.add_pos_left some _)
      rw [size, List.cons_append, Source.dropBytes, ← size, byteLength, Nat.add_sub_cancel_left,
        ih]

theorem tagOffset_eq {source : Source} {token : Token} {front blanks rest : List Char}
    (split : source.text = front ++ blanks ++ '<' :: rest)
    (before : token.before = byteLength front) (plain : '<' ∉ blanks) :
    source.tagOffset token = byteLength (front ++ blanks) := by
  have others : ∀ c ∈ blanks, decide (c ≠ '<') = true := fun c member =>
    decide_eq_true fun same => plain (same ▸ member)
  have searched : (blanks ++ '<' :: rest).takeWhile (· ≠ '<') = blanks := by
    rw [List.takeWhile_append_of_pos others]
    simp
  simp only [Source.tagOffset, split, before, List.append_assoc, dropBytes_append]
  rw [if_pos (by simp), searched, byteLength_append]

section

variable {text : List Char}

private theorem placed_step {front between content rest : List Char} {markups : List Markup}
    {token : Token} (split : text = front ++ between ++ '<' :: content ++ '>' :: rest)
    (passed : Passes front markups) (plain : '<' ∉ between) (piece : Piece content token.markup)
    (start : token.start = byteLength (front ++ between))
    (sought : (Source.ofText text).tagOffset token = token.start) {progress next : Progress}
    (placed : Placed text token.start progress.heads)
    (stepped : progress.step (Source.ofText text) token = .ok next) :
    Placed text (byteLength (front ++ between ++ '<' :: content ++ ['>'])) next.heads := by
  have after : token.start < byteLength (front ++ between ++ '<' :: content ++ ['>']) := by
    have opening : '<'.utf8Size = 1 := by decide
    simp only [start, byteLength_append, byteLength, opening]
    omega
  rcases Progress.heads_step stepped with same | ⟨tag, e, starts, started, more⟩
  · rw [same]
    exact placed.mono after.le
  · rw [sought] at started
    obtain ⟨ending, whole⟩ := exists_ending_of_startTag (piece rest) starts
    have shape : text = front ++ between ++ '<' :: tag ++ ending := by
      rw [split, List.append_assoc _ ('<' :: tag), List.cons_append, ← whole]
      simp
    have opens : OpensAt text e token.start :=
      start ▸ opensAt_of_startElement shape passed plain (whole ▸ piece rest) starts started
    have there : e.position.offset text = token.start := by
      rw [position_of_startElement started]
      exact offset_locate text token.start
    rw [more]
    exact placed.snoc opens there le_rfl after

private theorem placed_run {front between rest : List Char} {markups : List Markup}
    (split : text = front ++ between ++ rest) (passed : Passes front markups)
    (plain : '<' ∉ between) {progress : Progress} {root : Element}
    (placed : Placed text (byteLength (front ++ between)) progress.heads)
    (ran : progress.run (Source.ofText text) (scanFrom (byteLength (front ++ between)) rest) =
      .ok root) : ∃ bound, Placed text bound root.heads := by
  induction size : rest.length using Nat.strong_induction_on
    generalizing front between rest markups progress with
  | h size ih =>
      have scanned := scansTo_scanFrom (byteLength (front ++ between)) rest
      generalize scanFrom (byteLength (front ++ between)) rest = tokens at scanned ran
      cases scanned with
      | fault _ place fault => cases ran
      | done blank =>
          obtain ⟨opened, complete⟩ := progress
          cases opened with
          | cons inner outer => cases ran
          | nil =>
              cases complete with
              | none => cases ran
              | some complete =>
                  cases ran
                  exact ⟨byteLength (front ++ between), by simpa [Progress.heads] using placed⟩
      | @markup blanks content markup rest blank piece =>
          have plainBlanks : '<' ∉ between ++ blanks := by
            rw [List.mem_append, not_or]
            exact ⟨plain, fun member => absurd (blank _ member) (by decide)⟩
          have start : byteLength (front ++ between) + byteLength blanks =
              byteLength (front ++ (between ++ blanks)) := by
            simp only [byteLength_append, Nat.add_assoc]
          have stop : byteLength (front ++ between) +
              byteLength (blanks ++ '<' :: content ++ ['>']) =
              byteLength (front ++ (between ++ blanks) ++ '<' :: content ++ ['>'] ++ []) := by
            simp only [byteLength_append, List.append_nil, Nat.add_assoc]
          have shape : text = front ++ (between ++ blanks) ++ '<' :: content ++ '>' :: rest := by
            rw [split]
            simp
          obtain ⟨next, stepped, ran⟩ := Progress.run_token_eq_ok ran
          rw [stop] at ran
          refine ih rest.length ?_ ?_ (passed.snoc plainBlanks piece) (by simp) ?_ ran rfl
          · rw [← size]
            simp
            omega
          · rw [shape]
            simp
          · rw [List.append_nil]
            have inner : '<' ∉ blanks := fun member => plainBlanks (List.mem_append_right _ member)
            have cut : (Source.ofText text).text =
                front ++ between ++ blanks ++ '<' :: (content ++ '>' :: rest) := by
              rw [Source.ofText, split]
              simp
            refine placed_step shape passed plainBlanks piece start ?_
              (placed.mono (Nat.le_add_right _ _)) stepped
            exact (tagOffset_eq cut rfl inner).trans (byteLength_append _ _)
      | @text blanks letters rest blank filled plainText =>
          have plainAll : '<' ∉ between ++ (blanks ++ letters) := by
            rw [List.mem_append, List.mem_append, not_or, not_or]
            exact ⟨plain, fun member => absurd (blank _ member) (by decide), plainText⟩
          have stop : byteLength (front ++ between) + byteLength (blanks ++ letters) =
              byteLength (front ++ (between ++ (blanks ++ letters))) := by
            simp only [byteLength_append, Nat.add_assoc]
          obtain ⟨next, stepped, ran⟩ := Progress.run_token_eq_ok ran
          rw [stop] at ran
          refine ih rest.length ?_ ?_ passed plainAll ?_ ran rfl
          · rw [← size]
            have some := List.length_pos_of_ne_nil filled
            simp
            omega
          · rw [split]
            simp
          · rw [← stop]
            rcases Progress.heads_step stepped with same | ⟨tag, e, starts, _⟩
            · rw [same]
              exact placed.mono (Nat.le_add_right _ _)
            · cases starts

private theorem placed_readChars (unmarked : text.head? ≠ some '\uFEFF') {root : Element}
    (accepted : readChars text = .ok root) : ∃ bound, Placed text bound root.heads := by
  have whole : (Source.ofText text).body = text := by
    simp [Source.body, Source.ofText, unmarked]
  have nothing : Placed text (byteLength ([] ++ [])) Progress.empty.heads := by
    constructor <;> simp [Progress.heads, Progress.empty]
  have split : text = [] ++ [] ++ text := rfl
  simp only [readChars, whole] at accepted
  exact placed_run split .nil (by simp) nothing accepted

end

/-- In a text without a byte order mark the place of every element is that of its start tag, and
the places ascend in document order. -/
theorem opensAt_position_of_read {text : String} (unmarked : text.toList.head? ≠ some '\uFEFF')
    {root : Element} (accepted : read text = .ok root) :
    (∀ e ∈ root.inOrder, OpensAt text.toList e (e.position.offset text.toList)) ∧
      (root.inOrder.map fun e => e.position.offset text.toList).Pairwise (· < ·) := by
  obtain ⟨bound, placed⟩ := placed_readChars unmarked accepted
  constructor
  · intro e member
    exact opensAt_bare.mp (placed.opens e.bare (List.mem_map_of_mem member))
  · have ascending := placed.ascending
    rw [Element.heads, List.map_map] at ascending
    exact ascending

theorem opensAt_position_of_read_prefixed :
    let text := "<?xml version='1.0'?>\n<m:M>é<!-- <x> -->\n <K n='<'/><K/></m:M>"
    text.toList.head? ≠ some '\uFEFF' ∧ ∃ root, read text = .ok root ∧
      root.inOrder.map (·.position) = [⟨2, 1⟩, ⟨3, 2⟩, ⟨3, 12⟩] ∧
      (∀ e ∈ root.inOrder, OpensAt text.toList e (e.position.offset text.toList)) ∧
      (root.inOrder.map fun e => e.position.offset text.toList).Pairwise (· < ·) := by
  intro text
  have unmarked : text.toList.head? ≠ some '\uFEFF' := by decide
  obtain ⟨root, accepted, places⟩ := Recorded.exists_of_any
    (show (read text).toOption.any (fun root => decide
      (root.inOrder.map (·.position) = [⟨2, 1⟩, ⟨3, 2⟩, ⟨3, 12⟩])) = true by decide +kernel)
  exact ⟨unmarked, root, accepted, places, opensAt_position_of_read unmarked accepted⟩

/-- Behind a byte order mark two elements can be given the same place. -/
theorem marked_places_coincide :
    ∃ root, read "\uFEFF<a><b/></a>" = .ok root ∧
      root.inOrder.map (·.name) = ["a", "b"] ∧
      ¬(root.inOrder.map fun e =>
        e.position.offset "\uFEFF<a><b/></a>".toList).Pairwise (· < ·) :=
  Recorded.exists_of_any
    (show (read "\uFEFF<a><b/></a>").toOption.any (fun root => decide
      (root.inOrder.map (·.name) = ["a", "b"] ∧ ¬(root.inOrder.map fun e =>
        e.position.offset "\uFEFF<a><b/></a>".toList).Pairwise (· < ·))) = true by decide +kernel)

end ShoreMetadata.Xml
