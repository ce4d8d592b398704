import ShoreMetadata.Xml.Attribute
import ShoreMetadata.Xml.Element
import ShoreMetadata.Xml.LineIndex
import ShoreMetadata.Xml.Token

/-! Reading an element tree. Text and CDATA gather in the innermost open
element, comments and the like are passed over, and so is all but markup outside
the root. -/

namespace ShoreMetadata.Xml

open Text

/-- A text with what places in it are told by. The tokens do not count a byte
order mark, places do. -/
structure Source where
  text : List Char
  marked : Bool
  lines : LineIndex

namespace Source

def ofText (text : List Char) : Source :=
  ⟨text, text.head? = some '\uFEFF', .ofText text⟩

def body (source : Source) : List Char :=
  if source.marked then source.text.drop 1 else source.text

def locate (source : Source) (offset : Nat) : Position :=
  source.lines.locate offset

def fail (source : Source) (offset : Nat) (fault : Fault) : Except Error α :=
  .error ⟨source.locate offset, fault⟩

/-- What stands in a text from an offset on. An offset inside a character, at which the text
could not be cut, counts as that of the next one; behind a byte order mark there are such, as
in `<a>éé<b/></a>`. -/
def dropBytes : Nat → List Char → List Char
  | 0, cs => cs
  | _, [] => []
  | n + 1, c :: cs => dropBytes (n + 1 - c.utf8Size) cs

/-- Offset of the `<` of a tag: the first one of the whole text from where the token before
the tag ended. -/
def tagOffset (source : Source) (token : Token) : Nat :=
  let rest := dropBytes token.before source.text
  if '<' ∈ rest then token.before + byteLength (rest.takeWhile (· ≠ '<')) else token.before

end Source

structure OpenElement where
  name : List Char
  element : Element

/-- Open elements, innermost first, and the root once it is complete. -/
structure Progress where
  opened : List OpenElement
  root : Option Element

namespace Progress

def empty : Progress := ⟨[], none⟩

def addText (progress : Progress) (text : List Char) : Progress :=
  match progress.opened with
  | [] => progress
  | inner :: outer =>
    let element := { inner.element with text := inner.element.text ++ String.ofList text }
    { progress with opened := { inner with element } :: outer }

def attach (source : Source) (offset : Nat) (element : Element) (progress : Progress) :
    Except Error Progress :=
  match progress.opened with
  | parent :: outer =>
    .ok { progress with
      opened := { parent with element := parent.element.pushChild element } :: outer }
  | [] =>
    match progress.root with
    | some _ => source.fail offset (.secondRoot element.name)
    | none => .ok { progress with root := some element }

def startElement (source : Source) (offset : Nat) (content : List Char) : Except Error Element :=
  match tagAttributes content with
  | .error fault => source.fail offset fault
  | .ok attributes =>
    .ok {
      name := String.ofList (localName (tagName content))
      attributes
      children := []
      text := ""
      position := source.locate offset }

/-- The name in an end tag may be followed by blanks. -/
def endName (content : List Char) : List Char :=
  match dropTrailing isXmlBlank content with
  | [] => content
  | name => name

def closeElement (source : Source) (token : Token) (content : List Char) (progress : Progress) :
    Except Error Progress :=
  let found := endName content
  match progress.opened with
  | [] => source.fail token.start (.unmatchedEnd (String.ofList found))
  | inner :: outer =>
    if inner.name = found then
      { progress with opened := outer }.attach source token.stop inner.element
    else
      source.fail token.start
        (.mismatchedEnd (String.ofList inner.name) (String.ofList found))

def step (source : Source) (progress : Progress) (token : Token) : Except Error Progress :=
  match token.markup with
  | .opening content => do
    let element ← startElement source (source.tagOffset token) content
    return { progress with opened := ⟨tagName content, element⟩ :: progress.opened }
  | .single content => do
    let offset := source.tagOffset token
    progress.attach source offset (← startElement source offset content)
  | .closing content => progress.closeElement source token content
  | .cdata content => .ok (progress.addText content)
  | .text content =>
    match progress.opened with
    | [] => .ok progress
    | _ :: _ =>
      match unescape content with
      | .error fault => source.fail token.before (.reference fault)
      | .ok text => .ok (progress.addText text)
  | .aside => .ok progress

def finish (source : Source) (progress : Progress) : Except Error Element :=
  match progress.opened, progress.root with
  | inner :: _, _ => source.fail (byteLength source.text) (.openAtEnd inner.element.name)
  | [], some root => .ok root
  | [], none => .error ⟨⟨1, 1⟩, .noRoot⟩

def run (source : Source) (progress : Progress) : Tokens → Except Error Element
  | .done => progress.finish source
  | .fault offset fault => source.fail offset (.markup fault)
  | .token token rest => do
    let progress ← progress.step source token
    progress.run source rest

end Progress

def readChars (text : List Char) : Except Error Element :=
  let source := Source.ofText text
  Progress.empty.run source (scan source.body)

def read (text : String) : Except Error Element :=
  readChars text.toList

end ShoreMetadata.Xml
