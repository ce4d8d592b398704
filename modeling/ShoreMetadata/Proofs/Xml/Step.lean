import ShoreMetadata.Proofs.Xml.RoundTrip

/-! What one step of reading a text does. -/

namespace ShoreMetadata.Xml

open Text

def Markup.isTag : Markup → Bool
  | .opening _ | .single _ | .closing _ => true
  | _ => false

namespace Progress

variable {source : Source} {progress next : Progress} {token : Token}

theorem startElement_eq_ok {offset : Nat} {tag : List Char} {e : Element}
    (started : startElement source offset tag = .ok e) :
    ∃ attributes, tagAttributes tag = .ok attributes ∧
      e = ⟨String.ofList (localName (tagName tag)), attributes, [], "", source.locate offset⟩ := by
  unfold startElement at started
  split at started
  · cases started
  · rename_i attributes told
    cases started
    exact ⟨attributes, told, rfl⟩

inductive Attached (e : Element) : Progress → Progress → Prop
  | child {parent : OpenElement} {outer : List OpenElement} {root : Option Element} :
      Attached e ⟨parent :: outer, root⟩
        ⟨{ parent with element := parent.element.pushChild e } :: outer, root⟩
  | root : Attached e ⟨[], none⟩ ⟨[], some e⟩

theorem attached_of_attach {offset : Nat} {e : Element}
    (attached : progress.attach source offset e = .ok next) : Attached e progress next := by
  obtain ⟨opened, root⟩ := progress
  cases opened with
  | cons parent outer =>
      cases attached
      exact .child
  | nil =>
      cases root with
      | some root => cases attached
      | none =>
          cases attached
          exact .root

theorem addText_nil (progress : Progress) : progress.addText [] = progress := by
  obtain ⟨opened, root⟩ := progress
  cases opened with
  | nil => rfl
  | cons inner outer =>
      obtain ⟨name, element⟩ := inner
      cases element
      simp only [addText, String.ofList_nil, String.append_empty]

theorem addText_addText (progress : Progress) (text more : List Char) :
    (progress.addText text).addText more = progress.addText (text ++ more) := by
  obtain ⟨opened, root⟩ := progress
  cases opened with
  | nil => rfl
  | cons inner outer => simp only [addText, String.ofList_append, String.append_assoc]

def addition (progress : Progress) : Markup → Except ReferenceFault (List Char)
  | .cdata content => .ok content
  | .text content => if progress.opened.isEmpty then .ok [] else unescape content
  | _ => .ok []

/-- What a step does, when it succeeds. All markup but tags adds text, be it none. -/
inductive Stepped (source : Source) (progress : Progress) (token : Token) : Progress → Prop
  | opening {tag : List Char} {e : Element} (markup : token.markup = .opening tag)
      (started : startElement source (source.tagOffset token) tag = .ok e) :
      Stepped source progress token
        { progress with opened := ⟨tagName tag, e⟩ :: progress.opened }
  | single {tag : List Char} {e : Element} {next : Progress} (markup : token.markup = .single tag)
      (started : startElement source (source.tagOffset token) tag = .ok e)
      (attached : progress.attach source (source.tagOffset token) e = .ok next) :
      Stepped source progress token next
  | closing {content : List Char} {inner : OpenElement} {outer : List OpenElement}
      {next : Progress} (markup : token.markup = .closing content)
      (opened : progress.opened = inner :: outer) (named : inner.name = endName content)
      (attached : { progress with opened := outer }.attach source token.stop inner.element =
        .ok next) :
      Stepped source progress token next
  | within {text : List Char} (noTag : token.markup.isTag = false)
      (added : progress.addition token.markup = .ok text) :
      Stepped source progress token (progress.addText text)

theorem Stepped.unchanged (noTag : token.markup.isTag = false)
    (added : progress.addition token.markup = .ok []) :
    Stepped source progress token progress := by
  have nothing : Stepped source progress token (progress.addText []) := .within noTag added
  rwa [addText_nil] at nothing

theorem stepped_of_step (stepped : progress.step source token = .ok next) :
    Stepped source progress token next := by
  unfold step at stepped
  cases markup : token.markup with
  | opening tag =>
      rw [markup] at stepped
      dsimp only at stepped
      cases started : startElement source (source.tagOffset token) tag with
      | error fault =>
          rw [started] at stepped
          cases stepped
      | ok e =>
          rw [started] at stepped
          cases stepped
          exact .opening markup started
  | single tag =>
      rw [markup] at stepped
      dsimp only at stepped
      cases started : startElement source (source.tagOffset token) tag with
      | error fault =>
          rw [started] at stepped
          cases stepped
      | ok e =>
          rw [started] at stepped
          exact .single markup started stepped
  | closing content =>
      rw [markup] at stepped
      dsimp only [closeElement] at stepped
      split at stepped
      · cases stepped
      · rename_i inner outer opened
        split at stepped
        · rename_i named
          exact .closing markup opened named stepped
        · cases stepped
  | cdata content =>
      rw [markup] at stepped
      cases stepped
      exact .within (by rw [markup]; rfl) (by rw [markup]; rfl)
  | text content =>
      have noTag : token.markup.isTag = false := by rw [markup]; rfl
      rw [markup] at stepped
      dsimp only at stepped
      split at stepped
      · rename_i outside
        cases stepped
        exact .unchanged noTag (by rw [markup, addition, outside]; rfl)
      · rename_i inner outer opened
        split at stepped
        · cases stepped
        · rename_i text resolved
          cases stepped
          exact .within noTag (by rw [markup, addition, opened, ← resolved]; rfl)
  | aside =>
      rw [markup] at stepped
      cases stepped
      exact .unchanged (by rw [markup]; rfl) (by rw [markup]; rfl)

theorem step_of_stepped (stepped : Stepped source progress token next) :
    progress.step source token = .ok next := by
  cases stepped with
  | opening markup started =>
      rw [step, markup]
      dsimp only
      rw [started]
      rfl
  | single markup started attached =>
      rw [step, markup]
      dsimp only
      rw [started]
      exact attached
  | closing markup opened named attached =>
      rw [step, markup]
      dsimp only [closeElement]
      rw [opened]
      exact (if_pos named).trans attached
  | within noTag added =>
      rw [step]
      cases markup : token.markup with
      | opening tag | single tag | closing content =>
          rw [markup] at noTag
          cases noTag
      | cdata content =>
          rw [markup] at added
          cases added
          rfl
      | aside =>
          rw [markup] at added
          cases added
          rw [addText_nil]
      | text content =>
          rw [markup, addition] at added
          dsimp only
          split at added
          · rename_i outside
            cases added
            rw [List.isEmpty_iff.mp outside, addText_nil]
          · obtain ⟨inner, outer, opened⟩ :=
              List.exists_cons_of_ne_nil (mt List.isEmpty_iff.mpr ‹_›)
            rw [opened, added]

theorem run_token_eq_ok {rest : Tokens} {root : Element}
    (ran : progress.run source (.token token rest) = .ok root) :
    ∃ next, progress.step source token = .ok next ∧ next.run source rest = .ok root := by
  rw [run_token] at ran
  cases stepped : progress.step source token with
  | error fault =>
      rw [stepped] at ran
      cases ran
  | ok next =>
      rw [stepped] at ran
      exact ⟨next, rfl, ran⟩

end Progress

end ShoreMetadata.Xml
