import ShoreMetadata.Calendar.Rfc3339
import ShoreMetadata.Entity.Basic
import ShoreMetadata.Json.Writer

/-! The JSON form of entities. Absent fields and empty lists are left out, and
only an entity that stands alone tells its kind. -/

namespace ShoreMetadata

namespace FieldType

def toJson : (t : FieldType) → t.Value → Json
  | .long, (n : Int64) => .ofInt n.toInt
  | .int, (n : Int32) => .ofInt n.toInt
  | .double, x => .ofBinary Json.doubleRange x
  | .float, x => .ofBinary Json.singleRange x
  | .bool, (b : Bool) => .bool b
  | .date, t => .string (Calendar.Rfc3339.format t)
  | .text, s => .string s
  | .containerType, (c : ContainerType) => .string c.name
  | .producerType, (p : ProducerType) => .string p.name
  | .bytes, (content : List UInt8) => .array (content.map fun b => .ofNat b.toNat)

end FieldType

def Values.toMembers {fs : List Field} (values : Values fs) : List (String × Json) :=
  values.mapPresent fun f value => (f.key, f.type.toJson value)

def versionMember (version : Version) : String × Json :=
  ("version", .ofInt version.toInt)

mutual
def Entity.toMembers : {k : Kind} → Entity k → List (String × Json)
  | _, .mk values version links =>
    values.toMembers ++ versionMember version :: Links.toMembers links

def Links.toMembers : {ss : List Slot} → Links ss → List (String × Json)
  | _, .nil => []
  | s :: _, .cons members rest => Members.toMember s.key members ++ Links.toMembers rest

def Members.toMember (key : String) : {a : Arity} → {k : Kind} → Members a k →
    List (String × Json)
  | _, _, .absent => []
  | _, _, .present e => [(key, .object (Entity.toMembers e))]
  | _, _, .nil => []
  | _, _, .cons e rest => [(key, .array (.object (Entity.toMembers e) :: Members.toItems rest))]

def Members.toItems : {a : Arity} → {k : Kind} → Members a k → List Json
  | _, _, .absent => []
  | _, _, .present e => [.object (Entity.toMembers e)]
  | _, _, .nil => []
  | _, _, .cons e rest => .object (Entity.toMembers e) :: Members.toItems rest
end

def AnyEntity.toJson (e : AnyEntity) : Json :=
  .object (("kind", .string e.kind.name) :: e.entity.toMembers)

/-! Reading. Every function gives `none` for a value of the wrong form. -/

def Json.int64? : Json → Option Int64
  | .number n => n.integer?.bind Number.int64OfInt?
  | _ => none

def Json.int32? : Json → Option Int32
  | .number n => n.integer?.bind Number.int32OfInt?
  | _ => none

def Json.double? : Json → Option Number.Double
  | .number n => some n.binary
  | _ => none

/-- A whole number is rounded once, any other to double precision first. -/
def Json.single? : Json → Option Number.Single
  | .number n => some (if n.isWord then n.binary else (n.binary : Number.Double).convert)
  | _ => none

def Json.byte? : Json → Option UInt8
  | .number n =>
    n.integer?.bind fun value =>
      if 0 ≤ value ∧ value < 256 then some (UInt8.ofNat value.toNat) else none
  | _ => none

/-- A name, alone or as the only member of an object that says no more. -/
def Json.name? : Json → Option String
  | .string name => some name
  | .object [(name, .null)] => some name
  | .object [(name, .object [])] => some name
  | _ => none

namespace FieldType

def ofJson? : (t : FieldType) → Json → Option t.Value
  | .long, json => json.int64?
  | .int, json => json.int32?
  | .double, json => json.double?
  | .float, json => json.single?
  | .bool, .bool b => some b
  | .date, .string s => Calendar.Rfc3339.parse? s
  | .text, .string s => some s
  | .containerType, json => json.name?.bind ContainerType.ofName?
  | .producerType, json => json.name?.bind ProducerType.ofName?
  | .bytes, .array items => items.mapM Json.byte?
  | _, _ => none

end FieldType

/-- A missing member and `null` both leave a field absent. -/
def Field.ofMembers? (members : List (String × Json)) (f : Field) : Option (Option f.Value) :=
  match Json.memberIn? f.key members with
  | none => some none
  | some .null => some none
  | some json => (f.type.ofJson? json).map some

def Version.ofMembers? (members : List (String × Json)) : Option Version :=
  match Json.memberIn? "version" members with
  | none => some .unknown
  | some json => json.int64?

def Kind.keys (k : Kind) : List String :=
  k.fields.map Field.key ++ "version" :: k.slots.map Slot.key

def Entity.ofMembers? (k : Kind) (members : List (String × Json))
    (find : (s : Slot) → Option (Option (Members s.arity s.target))) : Option (Entity k) := do
  let values ← Values.build? (Field.ofMembers? members) k.fields
  let version ← Version.ofMembers? members
  let links ← Links.build? (fun s => (find s).getD (some (.empty s.arity))) k.slots
  return .mk values version links

/-- An array gives the first values of an entity without their names. -/
def Entity.ofItems? (k : Kind) (items : List Json)
    (find : (s : Slot) → Option (Option (Members s.arity s.target))) : Option (Entity k) :=
  if k.keys.length < items.length then none
  else Entity.ofMembers? k (k.keys.zip items) find

mutual
def Entity.ofJson? (k : Kind) : Json → Option (Entity k)
  | .object members => Entity.ofMembers? k members fun s => Members.find? s members
  | .array items => Entity.ofItems? k items fun s => Members.findAt? s k.keys items
  | _ => none

def Members.find? (s : Slot) :
    List (String × Json) → Option (Option (Members s.arity s.target))
  | [] => none
  | (key, json) :: rest =>
    match Members.find? s rest with
    | some found => some found
    | none => if key = s.key then some (Members.ofJson? s.arity s.target json) else none

def Members.findAt? (s : Slot) (keys : List String) :
    List Json → Option (Option (Members s.arity s.target))
  | [] => none
  | json :: rest =>
    if keys.head? = some s.key then some (Members.ofJson? s.arity s.target json)
    else Members.findAt? s keys.tail rest

def Members.ofJson? (a : Arity) (k : Kind) (json : Json) : Option (Members a k) :=
  match a, json with
  | .one, .null => some .absent
  | .one, .object members =>
    (Entity.ofMembers? k members fun s => Members.find? s members).map .present
  | .one, .array items =>
    (Entity.ofItems? k items fun s => Members.findAt? s k.keys items).map .present
  | .many, .array items => Members.listOfItems? k items
  | _, _ => none

def Members.listOfItems? (k : Kind) : List Json → Option (Members .many k)
  | [] => some .nil
  | item :: rest => do
    let first ← Entity.ofJson? k item
    let more ← Members.listOfItems? k rest
    return .cons first more
end

/-- The kind stands in a member of its own, or first in an array. -/
def AnyEntity.ofJson? (json : Json) : Option AnyEntity := do
  let (name, content) ← match json with
    | .array (.string name :: items) => some (name, Json.array items)
    | .object _ =>
      match json.member? "kind" with
      | some (.string name) => some (name, json)
      | _ => none
    | _ => none
  let kind ← Kind.ofName? name
  let entity ← Entity.ofJson? kind content
  return ⟨kind, entity⟩

end ShoreMetadata
