import ShoreMetadata.Xml.Element
import ShoreMetadata.Xml.Reference

/-! Writing an element tree: first as the sequence of its marks, then these as
text, on one line or each on a line of its own. -/

namespace ShoreMetadata.Xml

open Text

inductive Mark where
  | declaration
  | opening (name : String) (attributes : List (String × String))
  | single (name : String) (attributes : List (String × String))
  | text (content : List Char)
  | closing (name : String)

mutual
def Element.marks : Element → List Mark
  | ⟨name, attributes, children, text, _⟩ =>
    match children, trimBy isBlank text.toList with
    | [], [] => [.single name attributes]
    | children, [] => .opening name attributes :: childMarks children ++ [.closing name]
    | children, content =>
      .opening name attributes :: .text content :: childMarks children ++ [.closing name]

def childMarks : List Element → List Mark
  | [] => []
  | child :: rest => child.marks ++ childMarks rest
end

def attributeChars : List (String × String) → List Char
  | [] => []
  | (name, value) :: rest =>
    ' ' :: name.toList ++ '=' :: '"' :: escape value.toList ++ '"' :: attributeChars rest

def Mark.chars : Mark → List Char
  | .declaration => "<?xml version=\"1.0\" encoding=\"UTF-8\"?>".toList
  | .opening name attributes => '<' :: name.toList ++ attributeChars attributes ++ ['>']
  | .single name attributes => '<' :: name.toList ++ attributeChars attributes ++ ['/', '>']
  | .text content => escape content
  | .closing name => '<' :: '/' :: name.toList ++ ['>']

/-! Every mark but text starts a line, four columns further in for each open
element, unless it is the first or follows text. -/

def lineBreak (depth : Nat) : List Char :=
  '\n' :: List.replicate (4 * depth) ' '

def indented (depth : Nat) (breaks : Bool) : List Mark → List Char
  | [] => []
  | .text content :: rest => Mark.chars (.text content) ++ indented depth false rest
  | mark :: rest =>
    let outer := match mark with
      | .closing _ => depth - 1
      | _ => depth
    let inner := match mark with
      | .opening .. => depth + 1
      | _ => outer
    (if breaks then lineBreak outer else []) ++ mark.chars ++ indented inner true rest

structure Layout where
  pretty : Bool := true
  declaration : Bool := true

def writeChars (layout : Layout) (root : Element) : List Char :=
  let marks := if layout.declaration then .declaration :: root.marks else root.marks
  if layout.pretty then indented 0 false marks else marks.flatMap Mark.chars

def write (layout : Layout) (root : Element) : String :=
  String.ofList (writeChars layout root)

end ShoreMetadata.Xml
