import ShoreMetadata.Text.Blank
import ShoreMetadata.Text.Case
import ShoreMetadata.Xml.Position

/-! Element trees. Tags and attributes are looked up without regard to case, but
setting an attribute replaces only one of exactly the same name. -/

namespace ShoreMetadata.Xml

structure Element where
  name : String
  attributes : List (String × String)
  children : List Element
  text : String
  position : Position
deriving Inhabited

namespace Element

open Text

def ofName (name : String) : Element :=
  ⟨name, [], [], "", .none⟩

def ofText (name text : String) : Element :=
  ⟨name, [], [], text, .none⟩

def hasTag (e : Element) (tag : String) : Bool :=
  sameName e.name tag

def hasTagIn (e : Element) (tags : List String) : Bool :=
  tags.any e.hasTag

def attribute? (e : Element) (name : String) : Option String :=
  (e.attributes.find? fun entry => sameName entry.1 name).map Prod.snd

def setIn (name value : String) : List (String × String) → List (String × String)
  | [] => [(name, value)]
  | entry :: rest =>
    if entry.1 = name then (entry.1, value) :: rest else entry :: setIn name value rest

def setAttribute (e : Element) (name value : String) : Element :=
  { e with attributes := setIn name value e.attributes }

def removeAttribute (e : Element) (name : String) : Element :=
  { e with attributes := e.attributes.eraseP fun entry => sameName entry.1 name }

def takeAttribute (e : Element) (name : String) : Option String × Element :=
  match e.attributes.findIdx? fun entry => sameName entry.1 name with
  | some place =>
    (e.attributes[place]?.map Prod.snd, { e with attributes := e.attributes.eraseIdx place })
  | none => (none, e)

def pushChild (e child : Element) : Element :=
  { e with children := e.children ++ [child] }

def firstChildIn? (e : Element) (tags : List String) : Option Element :=
  e.children.find? (·.hasTagIn tags)

def textContent (e : Element) : String :=
  trim e.text

def isEmpty (e : Element) : Bool :=
  e.attributes.isEmpty && e.children.isEmpty && isBlankText e.text

end Element

end ShoreMetadata.Xml
