import ShoreMetadata.Proofs.Xml.DocumentOrder

/-! What is read depends neither on places nor, for what is forgotten of the texts, on these:
readings of the same markup go alike. -/

namespace ShoreMetadata.Xml

open Text

inductive Tokens.Alike : Tokens → Tokens → Prop
  | done : Alike .done .done
  | fault (place place' : Nat) (fault : MarkupFault) :
      Alike (.fault place fault) (.fault place' fault)
  | token {token token' : Token} {rest rest' : Tokens} (same : token.markup = token'.markup)
      (more : Alike rest rest') : Alike (.token token rest) (.token token' rest')

theorem alike_scanFrom {cs cs' : List Char}
    (same : cs.dropWhile isXmlBlank = cs'.dropWhile isXmlBlank) (offset offset' : Nat) :
    (scanFrom offset cs).Alike (scanFrom offset' cs') := by
  induction size : cs.length using Nat.strong_induction_on
    generalizing cs cs' offset offset' with
  | h size ih =>
      cases found : cs.dropWhile isXmlBlank with
      | nil =>
          rw [scanFrom_of_nil offset found, scanFrom_of_nil offset' (same ▸ found)]
          exact .done
      | cons c rest =>
          have shorter := length_dropWhile_le isXmlBlank cs
          rw [found, List.length_cons] at shorter
          rw [scanFrom_of_cons offset found, scanFrom_of_cons offset' (same ▸ found)]
          dsimp only
          split
          · split
            · exact .fault _ _ _
            · refine .token rfl (ih _ ?_ rfl _ _ rfl)
              simp only [List.length_drop]
              omega
          · refine .token rfl (ih _ ?_ rfl _ _ rfl)
            simp only [List.length_drop]
            omega

namespace Element

def characters (e : Element) : List Char :=
  e.inOrder.flatMap fun x => x.text.toList

private theorem characters_eq (e : Element) :
    e.characters = e.text.toList ++ e.children.flatMap characters := by
  rw [characters, inOrder_eq, List.flatMap_cons, List.flatMap_assoc]
  rfl

private theorem characters_unplaced (e : Element) : e.unplaced.characters = e.characters := by
  induction e using Element.induction with
  | step e ih =>
      have inside : e.children.flatMap (fun child => child.unplaced.characters) =
          e.children.flatMap characters := List.flatMap_congr ih
      rw [characters_eq, characters_eq, unplaced, text_withTexts, children_withTexts,
        List.flatMap_map, ← inside]
      rfl

def letters (e : Element) : Nat :=
  e.characters.length

private theorem letters_pushChild (e child : Element) :
    (e.pushChild child).letters = e.letters + child.letters := by
  have joined : (e.pushChild child).characters = e.characters ++ child.characters := by
    rw [characters_eq, characters_eq e]
    simp [pushChild]
  rw [letters, joined, List.length_append]
  rfl

theorem letters_unplaced (e : Element) : e.unplaced.letters = e.letters := by
  rw [letters, characters_unplaced, letters]

end Element

/-- A function of texts that can be applied piece by piece. -/
structure Joins (f : String → String) : Prop where
  empty : f "" = ""
  append : ∀ s t, f (s ++ t) = f s ++ f t

theorem joins_id : Joins id :=
  ⟨rfl, fun _ _ => rfl⟩

namespace Progress

/-! Progress up to places and to what is forgotten of texts. -/

/-- The same elements are open and complete, apart from their places and from what a function
forgets of their texts. -/
structure Alike (f : String → String) (p q : Progress) : Prop where
  opened : List.Forall₂ (fun o o' : OpenElement => o.name = o'.name ∧
    o.element.withTexts f = o'.element.withTexts f) p.opened q.opened
  root : p.root.map (Element.withTexts f) = q.root.map (Element.withTexts f)

variable {f : String → String} {p q next : Progress} {source source' : Source}

theorem Alike.refl (f : String → String) (p : Progress) : Alike f p p :=
  ⟨List.forall₂_same.mpr fun _ _ => ⟨rfl, rfl⟩, rfl⟩

theorem withTexts_pushChild {e e' child child' : Element}
    (same : e.withTexts f = e'.withTexts f) (added : child.withTexts f = child'.withTexts f) :
    (e.pushChild child).withTexts f = (e'.pushChild child').withTexts f := by
  rw [Element.ext_iff] at same ⊢
  simpa [Element.pushChild, added] using same

private theorem attach_alike (alike : Alike f p q) {e e' : Element}
    (same : e.withTexts f = e'.withTexts f) {offset : Nat} (offset' : Nat)
    (attached : p.attach source offset e = .ok next) :
    ∃ next', q.attach source' offset' e' = .ok next' ∧ Alike f next next' := by
  obtain ⟨opened', root'⟩ := q
  obtain ⟨pairs, roots⟩ := alike
  cases attached_of_attach attached with
  | child =>
      cases pairs with
      | cons here rest =>
          exact ⟨_, rfl, .cons ⟨here.1, withTexts_pushChild here.2 same⟩ rest, roots⟩
  | root =>
      cases pairs with
      | nil =>
          cases root' with
          | some root' => cases roots
          | none => exact ⟨_, rfl, .nil, congrArg some same⟩

theorem addText_alike (joins : Joins f) (alike : Alike f p q) {text text' : List Char}
    (same : f (String.ofList text) = f (String.ofList text')) :
    Alike f (p.addText text) (q.addText text') := by
  obtain ⟨opened, root⟩ := p
  obtain ⟨opened', root'⟩ := q
  obtain ⟨pairs, roots⟩ := alike
  cases pairs with
  | nil => exact ⟨.nil, roots⟩
  | cons here rest =>
      refine ⟨.cons ⟨here.1, ?_⟩ rest, roots⟩
      have texts := here.2
      rw [Element.ext_iff] at texts ⊢
      simpa [joins.append, same] using texts

private theorem startElement_alike (source' : Source) {offset : Nat} (offset' : Nat)
    {tag : List Char} {e : Element} (started : startElement source offset tag = .ok e) :
    ∃ e', startElement source' offset' tag = .ok e' ∧ e.withTexts f = e'.withTexts f := by
  unfold startElement at started ⊢
  split at started
  · cases started
  · cases started
    exact ⟨_, rfl, rfl⟩

def letters (progress : Progress) : Nat :=
  ((progress.root.toList ++ progress.opened.map OpenElement.element).flatMap
    Element.characters).length

private theorem letters_cons (inner : OpenElement) (outer : List OpenElement)
    (root : Option Element) :
    letters ⟨inner :: outer, root⟩ = letters ⟨outer, root⟩ + inner.element.letters := by
  simp only [letters, Element.letters, List.map_cons, List.flatMap_append, List.flatMap_cons,
    List.length_append]
  omega

private theorem letters_attach {offset : Nat} {e : Element}
    (attached : p.attach source offset e = .ok next) :
    next.letters = p.letters + e.letters := by
  cases attached_of_attach attached with
  | child => rw [letters_cons, letters_cons, Element.letters_pushChild, Nat.add_assoc]
  | root => simp [letters, Element.letters]

theorem letters_addText (occupied : p.opened ≠ []) (text : List Char) :
    (p.addText text).letters = p.letters + text.length := by
  obtain ⟨opened, root⟩ := p
  cases opened with
  | nil => contradiction
  | cons inner outer =>
      rw [addText, letters_cons, letters_cons, Element.letters, Element.letters,
        Element.characters_eq, Element.characters_eq]
      simp only [String.toList_append, String.toList_ofList, List.length_append]
      omega

private theorem letters_of_startElement {offset : Nat} {tag : List Char} {e : Element}
    (started : startElement source offset tag = .ok e) : e.letters = 0 := by
  obtain ⟨attributes, -, rfl⟩ := startElement_eq_ok started
  rfl

theorem addText_alike_letters (joins : Joins f) (alike : Alike f p q) (text : List Char) :
    Alike f (p.addText text) (q.addText text) ∧
      (p.addText text).letters + q.letters = (q.addText text).letters + p.letters := by
  refine ⟨addText_alike joins alike rfl, ?_⟩
  obtain ⟨opened, root⟩ := p
  obtain ⟨opened', root'⟩ := q
  cases alike.opened with
  | nil => exact Nat.add_comm _ _
  | cons here rest =>
      rw [letters_addText (by simp), letters_addText (by simp)]
      omega

theorem addition_alike (alike : Alike f p q) (markup : Markup) :
    p.addition markup = q.addition markup := by
  obtain ⟨opened, root⟩ := p
  obtain ⟨opened', root'⟩ := q
  cases markup with
  | text content => cases alike.opened <;> rfl
  | _ => rfl

theorem step_alike (joins : Joins f) (source' : Source) (alike : Alike f p q)
    {token token' : Token} (same : token.markup = token'.markup)
    (stepped : p.step source token = .ok next) :
    ∃ next', q.step source' token' = .ok next' ∧ Alike f next next' ∧
      next.letters + q.letters = next'.letters + p.letters := by
  cases stepped_of_step stepped with
  | opening markup started =>
      obtain ⟨e', started', texts⟩ :=
        startElement_alike (f := f) source' (source'.tagOffset token') started
      refine ⟨_, step_of_stepped (.opening (same ▸ markup) started'),
        ⟨.cons ⟨rfl, texts⟩ alike.opened, alike.root⟩, ?_⟩
      rw [letters_cons, letters_cons, letters_of_startElement started,
        letters_of_startElement started']
      exact Nat.add_comm _ _
  | single markup started attached =>
      obtain ⟨e', started', texts⟩ :=
        startElement_alike (f := f) source' (source'.tagOffset token') started
      obtain ⟨next', attached', after⟩ :=
        attach_alike alike texts (source'.tagOffset token') attached
      refine ⟨next', step_of_stepped (.single (same ▸ markup) started' attached'), after, ?_⟩
      rw [letters_attach attached, letters_attach attached', letters_of_startElement started,
        letters_of_startElement started']
      exact Nat.add_comm _ _
  | closing markup opened named attached =>
      obtain ⟨opened, root⟩ := p
      obtain ⟨opened', root'⟩ := q
      obtain ⟨pairs, roots⟩ := alike
      cases opened
      cases pairs with
      | @cons _ inner' _ outer' here rest =>
          have alikeOutside : Alike f ⟨_, root⟩ ⟨outer', root'⟩ := ⟨rest, roots⟩
          obtain ⟨next', attached', after⟩ :=
            attach_alike alikeOutside here.2 token'.stop attached
          refine ⟨next', step_of_stepped
            (.closing (same ▸ markup) rfl (here.1.symm.trans named) attached'), after, ?_⟩
          dsimp only at attached
          rw [letters_attach attached, letters_attach attached', letters_cons, letters_cons]
          omega
  | @within text noTag added =>
      rw [addition_alike alike] at added
      exact ⟨_, step_of_stepped (.within (same ▸ noTag) (same ▸ added)),
        addText_alike_letters joins alike text⟩

/-- Alike markup leads from alike progress to trees that are alike, which differ in the number of
characters by as much as the progress does. -/
theorem run_alike (joins : Joins f) (source' : Source) {tokens tokens' : Tokens}
    (markup : tokens.Alike tokens') (alike : Alike f p q) {e : Element}
    (ran : p.run source tokens = .ok e) :
    ∃ e', q.run source' tokens' = .ok e' ∧ e.withTexts f = e'.withTexts f ∧
      e.letters + q.letters = e'.letters + p.letters := by
  induction markup generalizing p q with
  | done =>
      obtain ⟨opened, root⟩ := p
      obtain ⟨opened', root'⟩ := q
      obtain ⟨pairs, roots⟩ := alike
      cases pairs with
      | cons here rest => cases ran
      | nil =>
          cases root with
          | none => cases ran
          | some root =>
              cases root' with
              | none => cases roots
              | some root' =>
                  cases ran
                  exact ⟨root', rfl, Option.some.inj roots,
                    by simp [letters, Element.letters, Nat.add_comm]⟩
  | fault place place' fault => cases ran
  | token same _ ih =>
      obtain ⟨next, stepped, ran⟩ := run_token_eq_ok ran
      obtain ⟨next', stepped', after, counted⟩ :=
        step_alike joins source' alike same stepped
      obtain ⟨e', ran', texts, countedAll⟩ := ih after ran
      refine ⟨e', ?_, texts, by omega⟩
      rw [run_token, stepped']
      exact ran'

end Progress

end ShoreMetadata.Xml
