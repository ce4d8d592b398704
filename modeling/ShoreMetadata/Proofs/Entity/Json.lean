import ShoreMetadata.Export.Document
import ShoreMetadata.Import.Build
import ShoreMetadata.Json.Reader
import ShoreMetadata.Proofs.Entity.Tree
import ShoreMetadata.Proofs.Json.Value

/-! Entities are read back from their JSON form, and so are whole documents of them. -/

namespace ShoreMetadata

open Number (Single)

namespace Json

variable {name : String} {members : List (String × Json)}

private theorem memberIn?_append (name : String) (front back : List (String × Json)) :
    memberIn? name (front ++ back) = (memberIn? name back).or (memberIn? name front) := by
  rw [memberIn?, List.reverse_append, List.find?_append, Option.map_or]
  rfl

private theorem memberIn?_cons (name key : String) (json : Json) (rest : List (String × Json)) :
    memberIn? name ((key, json) :: rest) =
      (memberIn? name rest).or (if key = name then some json else none) := by
  rw [← List.singleton_append, memberIn?_append]
  by_cases same : key = name <;> simp [memberIn?, same]

private theorem memberIn?_of_not_mem (missing : name ∉ members.map Prod.fst) :
    memberIn? name members = none := by
  rw [memberIn?, Option.map_eq_none_iff, List.find?_eq_none]
  rintro ⟨key, json⟩ member same
  have known : (key, json) ∈ members := List.mem_reverse.mp member
  exact missing (of_decide_eq_true same ▸ List.mem_map_of_mem (f := Prod.fst) known)

end Json

namespace Values

variable {fs : List Field}

private theorem keys_toMembers (values : Values fs) :
    values.toMembers.map Prod.fst = (values.entries.map Sigma.fst).map Field.key := by
  rw [toMembers, mapPresent_eq_map, List.map_map, List.map_map]
  rfl

private theorem keys_toMembers_sublist (values : Values fs) :
    (values.toMembers.map Prod.fst).Sublist (fs.map Field.key) := by
  rw [keys_toMembers]
  exact values.fields_entries_sublist.map Field.key

private theorem memberIn?_toMembers (distinct : (fs.map Field.key).Nodup) (values : Values fs)
    {f : Field} (member : f ∈ fs) :
    Json.memberIn? f.key values.toMembers = (values.get? f).map f.type.toJson := by
  induction values with
  | nil => cases member
  | @cons g fs value rest ih =>
      rw [List.map_cons, List.nodup_cons] at distinct
      have more : Json.memberIn? f.key (cons value rest).toMembers =
          (Json.memberIn? f.key rest.toMembers).or
            (if g.key = f.key then value.map g.type.toJson else none) := by
        cases value with
        | none => simp [toMembers, mapPresent]
        | some value =>
          change Json.memberIn? f.key ((g.key, g.type.toJson value) :: rest.toMembers) = _
          rw [Json.memberIn?_cons, Option.map_some]
      rcases List.mem_cons.mp member with rfl | member
      · have missing := mt (rest.keys_toMembers_sublist.subset ·) distinct.1
        rw [more, Json.memberIn?_of_not_mem missing, if_pos rfl, Option.none_or]
        simp [get?]
      · have other : g.key ≠ f.key := by
          intro same
          exact distinct.1 (same ▸ List.mem_map_of_mem (f := Field.key) member)
        have apart : g ≠ f := fun same => other (congrArg Field.key same)
        rw [more, ih distinct.2 member, if_neg other, Option.or_none, get?, dif_neg apart]

private theorem build?_eq_some {g : (f : Field) → Option (Option f.Value)} (distinct : fs.Nodup)
    (values : Values fs) (built : ∀ f ∈ fs, g f = some (values.get? f)) :
    build? g fs = some values := by
  induction values with
  | nil => rfl
  | @cons f fs value rest ih =>
      rw [List.nodup_cons] at distinct
      have first : g f = some value := by
        simpa only [get?_cons_same] using built f (by simp)
      have others : build? g fs = some rest := ih distinct.2 fun h member => by
        simpa only [get?_cons_of_mem distinct.1 member] using built h (by simp [member])
      rw [build?, first, others]
      rfl

end Values


namespace Members

def toJson? : {a : Arity} → {k : Kind} → Members a k → Option Json
  | _, _, .absent => none
  | _, _, .present e => some (.object e.toMembers)
  | _, _, .nil => none
  | _, _, .cons e rest => some (.array (.object e.toMembers :: rest.toItems))

private theorem toMember_eq (key : String) {a : Arity} {k : Kind} (m : Members a k) :
    m.toMember key = m.toJson?.toList.map (key, ·) := by
  cases m <;> rw [toMember] <;> rfl

private theorem memberIn?_toMember (name key : String) {a : Arity} {k : Kind} (m : Members a k) :
    Json.memberIn? name (m.toMember key) = if key = name then m.toJson? else none := by
  rw [toMember_eq]
  cases m.toJson? with
  | none => simp [Json.memberIn?]
  | some json =>
      change Json.memberIn? name [(key, json)] = _
      rw [Json.memberIn?_cons, Json.memberIn?_of_not_mem (by simp), Option.none_or]

private theorem find?_eq (s : Slot) (members : List (String × Json)) :
    find? s members = (Json.memberIn? s.key members).map (ofJson? s.arity s.target) := by
  induction members with
  | nil => rw [find?]; rfl
  | cons m rest ih =>
      rw [find?, ih, Json.memberIn?_cons]
      cases Json.memberIn? s.key rest with
      | some json => rfl
      | none =>
          by_cases same : m.1 = s.key
          · simp [same]
          · simp [same]

end Members

namespace Links

private theorem keys_toMembers_sublist : {ss : List Slot} → (links : Links ss) →
    ((toMembers links).map Prod.fst).Sublist (ss.map Slot.key)
  | _, .nil => by
      rw [toMembers]
      exact .slnil
  | s :: _, .cons members rest => by
      rw [toMembers, List.map_append, Members.toMember_eq]
      cases members.toJson? with
      | none => exact .cons _ rest.keys_toMembers_sublist
      | some json => exact .cons_cons _ rest.keys_toMembers_sublist

private theorem memberIn?_toMembers :
    {ss : List Slot} → (ss.map Slot.key).Nodup → (links : Links ss) →
    {s : Slot} → s ∈ ss → Json.memberIn? s.key (toMembers links) = (links.get s).toJson?
  | _, _, .nil, _, member => by cases member
  | t :: ss, distinct, .cons members rest, s, member => by
      rw [List.map_cons, List.nodup_cons] at distinct
      rw [toMembers, Json.memberIn?_append, Members.memberIn?_toMember]
      rcases List.mem_cons.mp member with rfl | member
      · have missing := mt (rest.keys_toMembers_sublist.subset ·) distinct.1
        rw [Json.memberIn?_of_not_mem missing, if_pos rfl, Option.none_or]
        simp [get]
      · have other : t.key ≠ s.key := by
          intro same
          exact distinct.1 (same ▸ List.mem_map_of_mem (f := Slot.key) member)
        have apart : t ≠ s := fun same => other (congrArg Slot.key same)
        rw [memberIn?_toMembers distinct.2 rest member, if_neg other, Option.or_none, get,
          dif_neg apart]

private theorem build?_eq_some {g : (s : Slot) → Option (Members s.arity s.target)} :
    {ss : List Slot} → ss.Nodup → (links : Links ss) → (∀ s ∈ ss, g s = some (links.get s)) →
      build? g ss = some links
  | _, _, .nil, _ => rfl
  | s :: ss, distinct, .cons members rest, built => by
      rw [List.nodup_cons] at distinct
      have first : g s = some members := by
        simpa only [get_cons_same] using built s (by simp)
      have others : build? g ss = some rest := build?_eq_some distinct.2 rest fun t member => by
        simpa only [get_cons_of_mem distinct.1 member] using built t (by simp [member])
      rw [build?, first, others]
      rfl

end Links

private theorem Kind.nodup_keys (k : Kind) : ("kind" :: k.keys).Nodup := by
  cases k <;> decide +kernel

namespace Entity

variable {k : Kind} {e : Entity k} {members : List (String × Json)}

/-- Members that tell what the members of an entity tell, and maybe more. -/
structure Described (e : Entity k) (members : List (String × Json)) : Prop where
  values : ∀ f ∈ k.fields, Json.memberIn? f.key members = (e.get? f).map f.type.toJson
  version : Json.memberIn? "version" members = some (.ofInt e.version.toInt)
  links : ∀ s ∈ k.slots, Json.memberIn? s.key members = (e.links.get s).toJson?

private theorem keys_toMembers_sublist (e : Entity k) :
    (e.toMembers.map Prod.fst).Sublist k.keys := by
  cases e with
  | mk values version links =>
      rw [toMembers, List.map_append, List.map_cons]
      exact values.keys_toMembers_sublist.append (links.keys_toMembers_sublist.cons_cons _)

private theorem memberIn?_toMembers (name : String) (e : Entity k) :
    Json.memberIn? name e.toMembers =
      ((Json.memberIn? name (Links.toMembers e.links)).or
        (if "version" = name then some (.ofInt e.version.toInt) else none)).or
          (Json.memberIn? name e.values.toMembers) := by
  cases e with
  | mk values version links =>
      rw [toMembers, Json.memberIn?_append, versionMember, Json.memberIn?_cons]
      rfl

private theorem described_toMembers (e : Entity k) : e.Described e.toMembers := by
  have distinct := (List.nodup_cons.mp k.nodup_keys).2
  rw [Kind.keys, List.nodup_append, List.nodup_cons] at distinct
  obtain ⟨fields, ⟨version, slots⟩, apart⟩ := distinct
  have noLink : ∀ name ∉ k.slots.map Slot.key,
      Json.memberIn? name (Links.toMembers e.links) = none := fun name missing =>
    Json.memberIn?_of_not_mem (mt (e.links.keys_toMembers_sublist.subset ·) missing)
  have noValue : ∀ name ∉ k.fields.map Field.key,
      Json.memberIn? name e.values.toMembers = none := fun name missing =>
    Json.memberIn?_of_not_mem (mt (e.values.keys_toMembers_sublist.subset ·) missing)
  refine ⟨fun f member => ?_, ?_, fun s member => ?_⟩
  · have other := apart f.key (List.mem_map_of_mem member)
    have named : f.key ∉ k.slots.map Slot.key := fun known =>
      other f.key (List.mem_cons_of_mem _ known) rfl
    rw [memberIn?_toMembers, noLink f.key named, if_neg (other "version" (by simp)).symm,
      Option.or_none, Option.none_or, e.values.memberIn?_toMembers fields member]
    rfl
  · have named : "version" ∉ k.fields.map Field.key := fun known =>
      apart "version" known "version" (by simp) rfl
    rw [memberIn?_toMembers, noLink "version" version, if_pos rfl, noValue "version" named]
    rfl
  · have known := List.mem_map_of_mem (f := Slot.key) member
    have named : s.key ∉ k.fields.map Field.key := fun known' =>
      apart s.key known' s.key (List.mem_cons_of_mem _ known) rfl
    have other : "version" ≠ s.key := fun same => version (same ▸ known)
    rw [memberIn?_toMembers, noValue s.key named, if_neg other, Option.or_none, Option.or_none,
      e.links.memberIn?_toMembers slots member]

theorem Described.cons (described : e.Described members) {name : String} (other : name ∉ k.keys)
    (json : Json) : e.Described ((name, json) :: members) := by
  have kept : ∀ key ∈ k.keys,
      Json.memberIn? key ((name, json) :: members) = Json.memberIn? key members := by
    intro key known
    rw [Json.memberIn?_cons, if_neg (fun same : name = key => other (same ▸ known)),
      Option.or_none]
  refine ⟨fun f member => ?_, ?_, fun s member => ?_⟩
  · rw [kept f.key (List.mem_append_left _ (List.mem_map_of_mem member))]
    exact described.values f member
  · rw [kept "version" (List.mem_append_right _ (by simp))]
    exact described.version
  · rw [kept s.key (List.mem_append_right _ (List.mem_cons_of_mem _ (List.mem_map_of_mem member)))]
    exact described.links s member

/-- It does not matter whether the members tell the kind, too. -/
def ReadsBack {k : Kind} (e : Entity k) : Prop :=
  ∀ members, e.Described members →
    ofMembers? k members (fun s => Members.find? s members) = some e

theorem ReadsBack.ofJson? (reads : e.ReadsBack) :
    Entity.ofJson? k (.object e.toMembers) = some e := by
  rw [Entity.ofJson?]
  exact reads _ e.described_toMembers

end Entity

namespace Members

private theorem listOfItems?_toItems : {k : Kind} → (m : Members .many k) →
    (∀ e ∈ m.toList, e.ReadsBack) → listOfItems? k m.toItems = some m
  | _, .nil, _ => by rw [toItems, listOfItems?]
  | _, .cons e rest, each => by
      rw [toList, List.forall_mem_cons] at each
      rw [toItems, listOfItems?, each.1.ofJson?, listOfItems?_toItems rest each.2]
      rfl

private theorem ofJson?_toJson? {a : Arity} {k : Kind} (m : Members a k)
    (each : ∀ e ∈ m.toList, e.ReadsBack) :
    (m.toJson?.map (ofJson? a k)).getD (some (.empty a)) = some m := by
  cases m with
  | absent => rfl
  | present e =>
      have first := each e (by simp [toList]) _ e.described_toMembers
      simp only [toJson?, Option.map_some, Option.getD_some]
      rw [ofJson?, first]
      rfl
  | nil => rfl
  | cons e rest =>
      have all := listOfItems?_toItems (.cons e rest) each
      rw [toItems] at all
      simp only [toJson?, Option.map_some, Option.getD_some]
      rw [ofJson?, all]

end Members

private theorem Field.ofMembers?_eq_some {f : Field} {members : List (String × Json)}
    {value : Option f.Value} (told : Json.memberIn? f.key members = value.map f.type.toJson)
    (each : ∀ v, value = some v → f.type.ofJson? (f.type.toJson v) = some v) :
    f.ofMembers? members = some value := by
  rw [Field.ofMembers?, told]
  cases value with
  | none => rfl
  | some v =>
      -- An absent field may stand as `null`, but nothing is read from `null`.
      have read := each v rfl
      rw [Option.map_some]
      generalize f.type.toJson v = json at read
      cases json with
      | null =>
          rw [FieldType.ofJson?_null] at read
          cases read
      | _ => exact congrArg (Option.map some) read

namespace Entity

variable {k : Kind}

def Portable (e : Entity k) : Prop :=
  ∀ f v, e.get? f = some v → f.type.Portable v

instance (e : Entity k) : Decidable e.Portable :=
  decidable_of_iff (∀ f ∈ k.fields, ∀ v ∈ e.get? f, f.type.Portable v)
    ⟨fun all f v stored => all f (mem_fields_of_get? stored) v stored,
      fun portable f _ v stored => portable f v stored⟩

def DigitsReadBack (e : Entity k) : Prop :=
  ∀ f v, e.get? f = some v → f.type.DigitsReadBack v

instance (e : Entity k) : Decidable e.DigitsReadBack :=
  decidable_of_iff (∀ f ∈ k.fields, ∀ v ∈ e.get? f, f.type.DigitsReadBack v)
    ⟨fun all f v stored => all f (mem_fields_of_get? stored) v stored,
      fun digits f _ v stored => digits f v stored⟩

theorem readsBack (e : Entity k) : e.Everywhere (fun _ x => x.Portable) →
    e.Everywhere (fun _ x => x.DigitsReadBack) → e.ReadsBack := by
  induction e using Entity.induction with
  | @step k e ih =>
      intro portable digits members described
      have values : Values.build? (Field.ofMembers? members) k.fields = some e.values := by
        refine Values.build?_eq_some k.nodup_fields e.values fun f member => ?_
        exact Field.ofMembers?_eq_some (described.values f member) fun v stored =>
          FieldType.ofJson?_toJson (portable.here f v stored) (digits.here f v stored)
      have version : Version.ofMembers? members = some e.version := by
        rw [Version.ofMembers?, described.version]
        exact Json.int64?_ofInt e.version
      have links : Links.build? (fun s => (Members.find? s members).getD (some (.empty s.arity)))
          k.slots = some e.links := by
        refine Links.build?_eq_some k.nodup_slots e.links fun s member => ?_
        rw [Members.find?_eq, described.links s member]
        exact Members.ofJson?_toJson? _ fun child held =>
          ih s child held (portable.inside s child held) (digits.inside s child held)
      rw [ofMembers?, values, version, links]
      cases e
      rfl

end Entity

private theorem Values.toMembers_wellFormed {fs : List Field} (values : Values fs) :
    ∀ m ∈ values.toMembers, m.2.WellFormed := by
  rw [toMembers, mapPresent_eq_map, List.forall_mem_map]
  exact fun entry _ => entry.1.type.toJson_wellFormed entry.2

namespace Members

private theorem toItems_eq : {k : Kind} → (m : Members .many k) →
    m.toItems = m.toList.map fun e => .object e.toMembers
  | _, .nil => by rw [toItems, toList, List.map_nil]
  | _, .cons e rest => by rw [toItems, toList, List.map_cons, toItems_eq rest]

private theorem toJson?_wellFormed {a : Arity} {k : Kind} {m : Members a k} {json : Json}
    (each : ∀ e ∈ m.toList, (Json.object e.toMembers).WellFormed)
    (written : m.toJson? = some json) : json.WellFormed := by
  cases m with
  | absent => cases written
  | present e =>
      cases written
      exact each e (by simp [toList])
  | nil => cases written
  | cons e rest =>
      cases written
      rw [toItems_eq, ← List.map_cons (f := fun e : Entity _ => Json.object e.toMembers)]
      exact .array (List.forall_mem_map.mpr each)

end Members

private theorem Links.toMembers_wellFormed : {ss : List Slot} → ss.Nodup → (links : Links ss) →
    (∀ s ∈ ss, ∀ child ∈ (links.get s).toList, (Json.object child.toMembers).WellFormed) →
      ∀ m ∈ toMembers links, m.2.WellFormed
  | _, _, .nil, _ => by
      rw [toMembers]
      exact fun _ member => nomatch member
  | s :: ss, distinct, .cons members rest, each => by
      rw [List.nodup_cons] at distinct
      have first := each s (by simp)
      have others : ∀ t ∈ ss, ∀ child ∈ (rest.get t).toList,
          (Json.object child.toMembers).WellFormed := by
        intro t member
        simpa only [get_cons_of_mem distinct.1 member] using each t (by simp [member])
      rw [toMembers, Members.toMember_eq, List.forall_mem_append, List.forall_mem_map]
      refine ⟨fun json written => ?_, rest.toMembers_wellFormed distinct.2 others⟩
      exact Members.toJson?_wellFormed (by simpa only [get_cons_same] using first)
        (Option.mem_toList.mp written)

private theorem Entity.toMembers_wellFormed {k : Kind} (e : Entity k) :
    (Json.object e.toMembers).WellFormed := by
  induction e using Entity.induction with
  | @step k e ih =>
      cases e with
      | mk values version links =>
          refine .object ?_
          rw [Entity.toMembers, List.forall_mem_append, List.forall_mem_cons]
          exact ⟨values.toMembers_wellFormed, .number (Json.ofInt_wellFormed version.toInt),
            links.toMembers_wellFormed k.nodup_slots fun s _ => ih s⟩

theorem Kind.ofName?_name (k : Kind) : Kind.ofName? k.name = some k := by
  cases k <;> decide

namespace AnyEntity

variable (e : AnyEntity)

theorem toJson_wellFormed : e.toJson.WellFormed := by
  cases e.entity.toMembers_wellFormed with
  | object each => exact .object (List.forall_mem_cons.mpr ⟨.string e.kind.name, each⟩)

private theorem member?_kind : e.toJson.member? "kind" = some (.string e.kind.name) := by
  have missing := (List.nodup_cons.mp e.kind.nodup_keys).1
  rw [toJson, Json.member?, Json.memberIn?_cons, if_pos rfl,
    Json.memberIn?_of_not_mem (mt (e.entity.keys_toMembers_sublist.subset ·) missing)]
  rfl

variable {e}

theorem ofJson?_toJson (portable : e.entity.Everywhere fun _ x => x.Portable)
    (digits : e.entity.Everywhere fun _ x => x.DigitsReadBack) :
    AnyEntity.ofJson? e.toJson = some e := by
  have missing := (List.nodup_cons.mp e.kind.nodup_keys).1
  have read := e.entity.readsBack portable digits _
    (e.entity.described_toMembers.cons missing (.string e.kind.name))
  have kind := e.member?_kind
  rw [toJson] at kind ⊢
  simp only [ofJson?, kind, Option.bind_eq_bind, Option.bind_some, Kind.ofName?_name,
    Entity.ofJson?, read]
  rfl

end AnyEntity

def readEntities? (text : String) : Option (List AnyEntity) :=
  match Json.read? text with
  | some (.array items) => items.mapM AnyEntity.ofJson?
  | _ => none

/-- Entities are read back from the JSON document that is written for them. -/
theorem readEntities?_exportEntities (config : Config) {entities : List AnyEntity}
    (portable : ∀ e ∈ entities, e.entity.Everywhere fun _ x => x.Portable)
    (digits : ∀ e ∈ entities, e.entity.Everywhere fun _ x => x.DigitsReadBack) :
    readEntities? (exportEntities config .json entities) = some entities := by
  have wellFormed : (Json.array (entities.map AnyEntity.toJson)).WellFormed :=
    .array (List.forall_mem_map.mpr fun e _ => e.toJson_wellFormed)
  rw [readEntities?, exportEntities, Json.read?_write wellFormed]
  exact Json.mapM_map_eq_some fun e member =>
    AnyEntity.ofJson?_toJson (portable e member) (digits e member)

theorem readEntities?_exportEntities_nested :
    let instant : Calendar.Instant := ⟨-62135596801, 123456789, by decide⟩
    let column : Entity .recordVariable :=
      ((Entity.empty _).set .columnIndex (some (-9223372036854775808 : Int64))).set .name
        (some "a\\\n\u0001é")
    let container : Entity .dataContainer :=
      ((((Entity.empty _).set .dataContainerType (some ContainerType.stream)).set .minLatitude
        (some (Number.Binary.ofDecimal true ⟨1, -1⟩ : Number.Double))).accept .recordDescription
          ((Entity.empty _).accept .recordVariables column)).accept .consumers
            ((Entity.empty _).set .dataProducerType (some ProducerType.processRun))
    let producer : Entity .dataProducer :=
      ((((Entity.empty _).set .startDate (some instant)).set .nominalDepth
        (some (Number.Binary.ofDecimal false ⟨33, -1⟩ : Single))).accept .outputs container).accept
          .outputs (Entity.empty _)
    let blob : Entity .resourceBlob :=
      (Entity.empty _).set .byteArray (some ([0, 255] : List UInt8))
    let entities : List AnyEntity := [⟨_, producer⟩, ⟨_, blob⟩]
    readEntities? (exportEntities { pretty := true } .json entities) = some entities := by
  intro instant column container producer blob entities
  exact readEntities?_exportEntities { pretty := true } (by decide +kernel) (by decide +kernel)

end ShoreMetadata
