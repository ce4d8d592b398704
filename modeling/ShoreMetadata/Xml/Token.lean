import ShoreMetadata.Text.Blank
import ShoreMetadata.Text.Case
import ShoreMetadata.Text.Utf8
import ShoreMetadata.Xml.Fault

/-! Markup and the text between it. Contents are what stands between `<` and
`>`. -/

namespace ShoreMetadata.Xml

open Text

inductive Markup where
  | opening (content : List Char)
  | single (content : List Char)
  | closing (content : List Char)
  | cdata (content : List Char)
  | text (content : List Char)
  | aside
deriving DecidableEq

/-- A piece of a text. `before` is the offset that the piece before it ended at,
`start` that of its first character that is no blank, `stop` that of its end. -/
structure Token where
  markup : Markup
  before : Nat
  start : Nat
  stop : Nat
deriving DecidableEq

/-! Contents, found from the character after `<`; `none` if the text ends
first. -/

/-- A tag ends at the first `>` outside quotes. -/
def tagContent? (quote : Option Char) : List Char → Option (List Char)
  | [] => none
  | c :: cs =>
    match quote with
    | some q => (tagContent? (if c = q then none else quote) cs).map (c :: ·)
    | none =>
      if c = '>' then some []
      else (tagContent? (if c = '"' ∨ c = '\'' then some c else none) cs).map (c :: ·)

/-- A `>` after two marks, at least at an index, ends comments and CDATA. -/
def markedContent? (mark : Char) (least index : Nat) (second first : Char) :
    List Char → Option (List Char)
  | [] => none
  | c :: cs =>
    if c = '>' ∧ second = mark ∧ first = mark ∧ least ≤ index then some []
    else (markedContent? mark least (index + 1) first c cs).map (c :: ·)

/-- A document type ends at the `>` that no `<` within it pairs with. -/
def doctypeContent? (depth : Nat) : List Char → Option (List Char)
  | [] => none
  | c :: cs =>
    if c = '>' ∧ depth = 0 then some []
    else
      let depth := if c = '<' then depth + 1 else if c = '>' then depth - 1 else depth
      (doctypeContent? depth cs).map (c :: ·)

def instructionContent? (previous : Char) : List Char → Option (List Char)
  | [] => none
  | c :: cs =>
    if c = '>' ∧ previous = '?' then some [] else (instructionContent? c cs).map (c :: ·)

/-! One piece of markup from the character after its `<`: the content, and what
it is. A fault comes with its distance in bytes from the `<`. -/

def startsWith (cs expected : List Char) : Bool :=
  cs.take expected.length == expected

def startsWithIgnoringCase (cs expected : List Char) : Bool :=
  startsWith (cs.map Char.toLower) (expected.map Char.toLower)

abbrev MarkupResult := Except (Nat × MarkupFault) (List Char × Markup)

def readComment (cs : List Char) : MarkupResult :=
  match markedContent? '-' 5 0 '!' '!' cs with
  | some content =>
    if startsWith content "!--".toList then .ok (content, .aside)
    else .error (0, .unclosedComment)
  | none => .error (0, .unclosedComment)

/-- The mark of CDATA is written in capitals. -/
def readCData (cs : List Char) : MarkupResult :=
  match markedContent? ']' 0 0 '!' '!' cs with
  | some content =>
    if startsWith content "![CDATA[".toList then
      .ok (content, .cdata ((content.drop 8).take (content.length - 10)))
    else .error (0, .unclosedCData)
  | none => .error (0, .unclosedCData)

/-- The mark of a document type is written in any case, and a name follows it. -/
def readDoctype (cs : List Char) : MarkupResult :=
  match doctypeContent? 0 cs with
  | some content =>
    if !startsWithIgnoringCase content "!DOCTYPE".toList then .error (0, .unclosedDoctype)
    else if (content.drop 8).all isXmlBlank then .error (1 + byteLength content, .unnamedDoctype)
    else .ok (content, .aside)
  | none => .error (0, .unclosedDoctype)

def readInstruction (cs : List Char) : MarkupResult :=
  match instructionContent? '?' (cs.drop 1) with
  | some [] => .error (0, .unclosedInstruction)
  | some content => .ok ('?' :: content, .aside)
  | none => .error (0, .unclosedInstruction)

def tagMarkup (content : List Char) : Markup :=
  if content.head? = some '/' then .closing (content.drop 1)
  else if content.getLast? = some '/' then .single content.dropLast
  else .opening content

def readTag (cs : List Char) : MarkupResult :=
  match tagContent? none cs with
  | some content => .ok (content, tagMarkup content)
  | none => .error (0, .unclosedTag)

def readMarkup (cs : List Char) : MarkupResult :=
  match cs with
  | '!' :: '[' :: _ => readCData cs
  | '!' :: '-' :: _ => readComment cs
  | '!' :: 'D' :: _ => readDoctype cs
  | '!' :: 'd' :: _ => readDoctype cs
  | '!' :: _ => .error (0, .unknownMarkup)
  | '?' :: _ => readInstruction cs
  | _ => readTag cs

/-- The tokens of a text, up to its end or to the first fault and its offset. -/
inductive Tokens where
  | done
  | fault (offset : Nat) (fault : MarkupFault)
  | token (token : Token) (rest : Tokens)

/-- Blanks around text are dropped, and text of blanks alone with them. -/
def scanFrom (offset : Nat) (cs : List Char) : Tokens :=
  let start := offset + byteLength (cs.takeWhile isXmlBlank)
  match _split : cs.dropWhile isXmlBlank with
  | [] => .done
  | c :: rest =>
    if c = '<' then
      match readMarkup rest with
      | .error (distance, fault) => .fault (start + distance) fault
      | .ok (content, markup) =>
        let stop := start + 1 + byteLength content + 1
        .token ⟨markup, offset, start, stop⟩ (scanFrom stop (rest.drop (content.length + 1)))
    else
      let text := rest.takeWhile (· ≠ '<')
      let stop := start + byteLength (c :: text)
      .token ⟨.text (dropTrailing isXmlBlank (c :: text)), offset, start, stop⟩
        (scanFrom stop (rest.drop text.length))
termination_by cs.length
decreasing_by
  all_goals
    have blanks : (cs.dropWhile isXmlBlank).length ≤ cs.length :=
      (List.dropWhile_sublist isXmlBlank).length_le
    rw [_split] at blanks
    simp only [List.length_cons, List.length_drop] at blanks ⊢
    omega

def scan (cs : List Char) : Tokens :=
  scanFrom 0 cs

end ShoreMetadata.Xml
