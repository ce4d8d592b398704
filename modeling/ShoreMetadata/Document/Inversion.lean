import ShoreMetadata.Schema.Tag
import ShoreMetadata.Xml.Element

/-! Documents that consist of one group of producers. Such a document is turned
inside out: its producers come to the top, each holding a copy of the group. -/

namespace ShoreMetadata.Inversion

open Xml (Element)

def soleGroup? (root : Element) : Option Element :=
  match root.children with
  | [group] =>
    if group.hasTag Kind.dataProducerGroup.tag && !group.children.isEmpty then some group
    else none
  | _ => none

/-- The group without its members; a description among them becomes an
attribute. -/
def emptied (group : Element) : Element :=
  let descriptions := group.children.filter (·.hasTag descriptionTag)
  descriptions.foldl (fun g d => g.setAttribute descriptionTag d.textContent)
    { group with children := [] }

def producers (group : Element) : List Element :=
  group.children.filter (·.hasTagIn Kind.dataProducer.acceptedTags)

/-- The root turned inside out, if it consists of a group. Members that are
neither producers nor descriptions are dropped. -/
def invert? (root : Element) : Option Element :=
  (soleGroup? root).map fun group =>
    { root with children := (producers group).map (·.pushChild (emptied group)) }

def invert (root : Element) : Element :=
  (invert? root).getD root

end ShoreMetadata.Inversion
