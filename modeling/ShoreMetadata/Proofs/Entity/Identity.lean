import ShoreMetadata.Entity.Identity
import ShoreMetadata.Proofs.Entity.Tree

/-! Sameness of entities as a relation. It is reflexive where no number is a NaN, and
symmetric. It is transitive among producers as long as their ids and their names tell the
same of them apart, and always among entities of another kind. -/

namespace ShoreMetadata

namespace Number.Binary

variable {F : Format} {a b c : Binary F}

theorem same_refl (known : a.isNaN = false) : a.same a = true := by
  cases a with
  | nan => cases known
  | number => simp [same]

theorem same_symm (agree : a.same b = true) : b.same a = true := by
  cases a with
  | nan => cases agree
  | number s r _ =>
      cases b with
      | nan => cases agree
      | number t q _ =>
          simp only [same, Bool.and_eq_true, Bool.or_eq_true, beq_iff_eq] at agree ⊢
          obtain ⟨rfl, signs⟩ := agree
          exact ⟨rfl, signs.imp_left Eq.symm⟩

theorem same_trans (first : a.same b = true) (second : b.same c = true) : a.same c = true := by
  cases a with
  | nan => cases first
  | number s r _ =>
      cases b with
      | nan => cases first
      | number t q _ =>
          cases c with
          | nan => cases second
          | number u p _ =>
              simp only [same, Bool.and_eq_true, Bool.or_eq_true, beq_iff_eq] at first second ⊢
              obtain ⟨rfl, signs⟩ := first
              obtain ⟨rfl, signs'⟩ := second
              refine ⟨rfl, ?_⟩
              rcases signs with rfl | zero
              · exact signs'
              · exact .inr zero

end Number.Binary

namespace FieldType

def isNaN : (t : FieldType) → t.Value → Bool
  | .double, (x : Number.Double) => x.isNaN
  | .float, (x : Number.Single) => x.isNaN
  | _, _ => false

variable {t : FieldType} {a b c : t.Value}

theorem same_refl (known : t.isNaN a = false) : t.same a a = true := by
  cases t with
  | double => exact Number.Binary.same_refl known
  | float => exact Number.Binary.same_refl known
  | _ => simp [same]

theorem same_symm (agree : t.same a b = true) : t.same b a = true := by
  cases t with
  | double => exact Number.Binary.same_symm agree
  | float => exact Number.Binary.same_symm agree
  | _ =>
      simp only [same, beq_iff_eq, decide_eq_true_eq] at agree ⊢
      exact agree.symm

theorem same_trans (first : t.same a b = true) (second : t.same b c = true) :
    t.same a c = true := by
  cases t with
  | double => exact Number.Binary.same_trans first second
  | float => exact Number.Binary.same_trans first second
  | _ =>
      simp only [same, beq_iff_eq, decide_eq_true_eq] at first second ⊢
      exact first.trans second

end FieldType

namespace Values

section

variable {t : FieldType} {a b c : Option t.Value}

theorem sameOption_refl (known : ∀ v ∈ a, t.isNaN v = false) : sameOption t a a = true := by
  cases a with
  | none => rfl
  | some v => exact FieldType.same_refl (known v rfl)

theorem sameOption_symm (agree : sameOption t a b = true) : sameOption t b a = true := by
  cases a <;> cases b
  · rfl
  · cases agree
  · cases agree
  · exact FieldType.same_symm agree

theorem sameOption_trans (first : sameOption t a b = true) (second : sameOption t b c = true) :
    sameOption t a c = true := by
  cases a <;> cases b <;> cases c
  case some.some.some => exact FieldType.same_trans first second
  case none.none.none => rfl
  all_goals first | cases first; done | cases second

private theorem isSome_eq_of_sameOption (agree : sameOption t a b = true) :
    a.isSome = b.isSome := by
  cases a <;> cases b
  · rfl
  · cases agree
  · cases agree
  · rfl

end

variable {fs : List Field}

theorem same_refl (a : Values fs)
    (known : ∀ entry ∈ a.entries, entry.1.type.isNaN entry.2 = false) : a.same a = true := by
  induction a with
  | nil => rfl
  | cons value rest ih =>
      simp only [same, Bool.and_eq_true]
      refine ⟨sameOption_refl fun v stored => ?_, ih fun entry member => known entry ?_⟩
      · cases stored
        exact known ⟨_, v⟩ (by simp [entries, mapPresent])
      · cases value with
        | none => exact member
        | some v => exact List.mem_cons_of_mem _ member

theorem same_symm : {fs : List Field} → (a b : Values fs) → a.same b = true → b.same a = true
  | _, .nil, .nil, _ => rfl
  | _, .cons _ as, .cons _ bs, agree => by
      simp only [same, Bool.and_eq_true] at agree ⊢
      exact ⟨sameOption_symm agree.1, same_symm as bs agree.2⟩

theorem same_trans : {fs : List Field} → (a b c : Values fs) → a.same b = true →
    b.same c = true → a.same c = true
  | _, .nil, .nil, .nil, _, _ => rfl
  | _, .cons _ as, .cons _ bs, .cons _ cs, first, second => by
      simp only [same, Bool.and_eq_true] at first second ⊢
      exact ⟨sameOption_trans first.1 second.1, same_trans as bs cs first.2 second.2⟩

private theorem sameOption_get? : {fs : List Field} → (a b : Values fs) → a.same b = true →
    (f : Field) → sameOption f.type (a.get? f) (b.get? f) = true
  | _, .nil, .nil, _, _ => rfl
  | g :: _, .cons _ as, .cons _ bs, agree, f => by
      simp only [same, Bool.and_eq_true] at agree
      by_cases same : g = f
      · subst same
        simpa [get?] using agree.1
      · simpa [get?, same] using sameOption_get? as bs agree.2 f

end Values

mutual
theorem Entity.equal_symm : {k : Kind} → (a b : Entity k) → a.equal b = true →
    b.equal a = true
  | _, .mk values version links, .mk values' version' links', agree => by
      simp only [Entity.equal, Bool.and_eq_true, beq_iff_eq] at agree ⊢
      obtain ⟨⟨valuesAgree, versionAgree⟩, linksAgree⟩ := agree
      exact ⟨⟨values.same_symm values' valuesAgree, versionAgree.symm⟩,
        Links.equal_symm links links' linksAgree⟩

theorem Links.equal_symm : {ss : List Slot} → (a b : Links ss) → Links.equal a b = true →
    Links.equal b a = true
  | _, .nil, .nil, _ => rfl
  | _, .cons members rest, .cons members' rest', agree => by
      simp only [Links.equal, Bool.and_eq_true] at agree ⊢
      exact ⟨Members.equal_symm members members' agree.1, Links.equal_symm rest rest' agree.2⟩

theorem Members.equal_symm : {a : Arity} → {k : Kind} → (m m' : Members a k) →
    Members.equal m m' = true → Members.equal m' m = true
  | _, _, .absent, .absent, _ => rfl
  | _, _, .present e, .present e', agree => by
      rw [Members.equal] at agree ⊢
      exact Entity.equal_symm e e' agree
  | _, _, .nil, .nil, _ => rfl
  | _, _, .cons e rest, .cons e' rest', agree => by
      simp only [Members.equal, Bool.and_eq_true] at agree ⊢
      exact ⟨Entity.equal_symm e e' agree.1, Members.equal_symm rest rest' agree.2⟩
end

mutual
theorem Entity.equal_trans : {k : Kind} → (a b c : Entity k) → a.equal b = true →
    b.equal c = true → a.equal c = true
  | _, .mk values version links, .mk values' version' links', .mk values'' version'' links'',
    first, second => by
      simp only [Entity.equal, Bool.and_eq_true, beq_iff_eq] at first second ⊢
      obtain ⟨⟨valuesAgree, versionAgree⟩, linksAgree⟩ := first
      obtain ⟨⟨valuesAgree', versionAgree'⟩, linksAgree'⟩ := second
      exact ⟨⟨values.same_trans values' values'' valuesAgree valuesAgree',
        versionAgree.trans versionAgree'⟩,
        Links.equal_trans links links' links'' linksAgree linksAgree'⟩

theorem Links.equal_trans : {ss : List Slot} → (a b c : Links ss) → Links.equal a b = true →
    Links.equal b c = true → Links.equal a c = true
  | _, .nil, .nil, .nil, _, _ => rfl
  | _, .cons members rest, .cons members' rest', .cons members'' rest'', first, second => by
      simp only [Links.equal, Bool.and_eq_true] at first second ⊢
      exact ⟨Members.equal_trans members members' members'' first.1 second.1,
        Links.equal_trans rest rest' rest'' first.2 second.2⟩

theorem Members.equal_trans : {a : Arity} → {k : Kind} → (m m' m'' : Members a k) →
    Members.equal m m' = true → Members.equal m' m'' = true → Members.equal m m'' = true
  | _, _, .absent, .absent, _, _, second => second
  | _, _, .present e, .present e', .present e'', first, second => by
      rw [Members.equal] at first second ⊢
      exact Entity.equal_trans e e' e'' first second
  | _, _, .nil, .nil, _, _, second => second
  | _, _, .cons e rest, .cons e' rest', .cons e'' rest'', first, second => by
      simp only [Members.equal, Bool.and_eq_true] at first second ⊢
      exact ⟨Entity.equal_trans e e' e'' first.1 second.1,
        Members.equal_trans rest rest' rest'' first.2 second.2⟩
end

theorem Members.equal_refl : {a : Arity} → {k : Kind} → (m : Members a k) →
    (∀ child ∈ m.toList, child.equal child = true) → Members.equal m m = true
  | _, _, .absent, _ => rfl
  | _, _, .present e, inside => by
      rw [Members.equal]
      exact inside e (by simp [toList])
  | _, _, .nil, _ => rfl
  | _, _, .cons e rest, inside => by
      rw [toList, List.forall_mem_cons] at inside
      simp only [Members.equal, Bool.and_eq_true]
      exact ⟨inside.1, rest.equal_refl inside.2⟩

theorem Links.equal_refl : {ss : List Slot} → ss.Nodup → (links : Links ss) →
    (∀ s ∈ ss, ∀ child ∈ (links.get s).toList, child.equal child = true) →
    Links.equal links links = true
  | _, _, .nil, _ => rfl
  | t :: _, distinct, .cons members rest, inside => by
      rw [List.nodup_cons] at distinct
      simp only [Links.equal, Bool.and_eq_true]
      refine ⟨members.equal_refl ?_, rest.equal_refl distinct.2 fun s known => ?_⟩
      · simpa only [get_cons_same] using inside t (by simp)
      · simpa only [get_cons_of_mem distinct.1 known] using inside s (by simp [known])

namespace Entity

variable {k : Kind}

def NaNFree (e : Entity k) : Prop :=
  e.Everywhere fun _ x => ∀ entry ∈ x.values.entries, entry.1.type.isNaN entry.2 = false

instance (e : Entity k) : Decidable e.NaNFree :=
  inferInstanceAs (Decidable (e.Everywhere _))

variable {a b c : Entity k}

theorem equal_refl (known : a.NaNFree) : a.equal a = true := by
  induction a using Entity.induction with
  | @step k e ih =>
      obtain ⟨values, version, links⟩ := e
      simp only [equal, Bool.and_eq_true, beq_self_eq_true, and_true]
      exact ⟨values.same_refl known.here, links.equal_refl k.nodup_slots fun s _ child member =>
        ih s child member (known.inside s child member)⟩

private theorem agreeOn_of_equal (agree : a.equal b = true) (f : Field) : agreeOn a b f = true := by
  obtain ⟨values, version, links⟩ := a
  obtain ⟨values', version', links'⟩ := b
  simp only [equal, Bool.and_eq_true] at agree
  exact values.sameOption_get? values' agree.1.1 f

private theorem bothHave?_eq (a b : Entity k) (f : Field) : bothHave? a b f =
    if (a.get? f).isSome ∧ (b.get? f).isSome then some (agreeOn a b f) else none := by
  rw [bothHave?, agreeOn]
  cases a.get? f <;> cases b.get? f <;> rfl

/-- Sameness by a key that both have, and equality where one of them lacks it. -/
def sameBy (key : NaturalKey) (a b : Entity k) : Bool :=
  match bothHave? a b key.leading with
  | some agree => agree && key.further.all (agreeOn a b)
  | none => a.equal b

variable {key : NaturalKey}

private theorem sameBy_iff : sameBy key a b = true ↔
    ((a.get? key.leading).isSome = true ∧ (b.get? key.leading).isSome = true ∧
      ∀ f ∈ key.leading :: key.further, agreeOn a b f = true) ∨
    ((a.get? key.leading).isSome = false ∧ (b.get? key.leading).isSome = false ∧
      a.equal b = true) := by
  rw [sameBy, bothHave?_eq]
  by_cases both : (a.get? key.leading).isSome ∧ (b.get? key.leading).isSome
  · simp [both]
  · have alike : a.equal b = true → (a.get? key.leading).isSome = (b.get? key.leading).isSome :=
      fun equal => Values.isSome_eq_of_sameOption (agreeOn_of_equal equal key.leading)
    simp only [both, if_false]
    cases hasA : (a.get? key.leading).isSome <;> cases hasB : (b.get? key.leading).isSome <;>
      simp_all

private theorem sameBy_of_equal (agree : a.equal b = true) : sameBy key a b = true := by
  have alike := Values.isSome_eq_of_sameOption (agreeOn_of_equal agree key.leading)
  cases has : (b.get? key.leading).isSome with
  | true => exact sameBy_iff.mpr (.inl ⟨alike.trans has, has, fun f _ => agreeOn_of_equal agree f⟩)
  | false => exact sameBy_iff.mpr (.inr ⟨alike.trans has, has, agree⟩)

theorem sameBy_symm (agree : sameBy key a b = true) : sameBy key b a = true := by
  rcases sameBy_iff.mp agree with ⟨hasA, hasB, fields⟩ | ⟨lacksA, lacksB, equal⟩
  · exact sameBy_iff.mpr (.inl ⟨hasB, hasA, fun f member =>
      Values.sameOption_symm (fields f member)⟩)
  · exact sameBy_iff.mpr (.inr ⟨lacksB, lacksA, a.equal_symm b equal⟩)

theorem sameBy_trans (first : sameBy key a b = true) (second : sameBy key b c = true) :
    sameBy key a c = true := by
  rcases sameBy_iff.mp first with ⟨hasA, hasB, fields⟩ | ⟨lacksA, lacksB, equal⟩
  · rcases sameBy_iff.mp second with ⟨_, hasC, fields'⟩ | ⟨lacksB, _, _⟩
    · exact sameBy_iff.mpr (.inl ⟨hasA, hasC, fun f member =>
        Values.sameOption_trans (fields f member) (fields' f member)⟩)
    · rw [hasB] at lacksB
      cases lacksB
  · rcases sameBy_iff.mp second with ⟨hasB, _, _⟩ | ⟨_, lacksC, equal'⟩
    · rw [lacksB] at hasB
      cases hasB
    · exact sameBy_iff.mpr (.inr ⟨lacksA, lacksC, a.equal_trans b c equal equal'⟩)

end Entity

theorem Kind.eq_dataProducer_of_fallsBackToId {k : Kind} (byId : k.fallsBackToId = true) :
    k = .dataProducer := by
  cases k <;> first | rfl | cases byId

namespace Entity

variable {k : Kind} {a b c : Entity k} {key : NaturalKey}

private theorem same_eq_sameBy (natural : k.naturalKey? = some key) (noId : k.fallsBackToId = false)
    (a b : Entity k) : a.same b = sameBy key a b := by
  rw [same, natural, sameBy]
  dsimp only
  cases bothHave? a b key.leading with
  | some agree => rfl
  | none => simp [sameWithoutKey, noId]

private theorem same_eq_equal (natural : k.naturalKey? = none) (a b : Entity k) :
    a.same b = a.equal b := by
  simp only [same, natural]

/-! Producers: the id stands in for a name that one of the two lacks. -/

def nameKey : NaturalKey :=
  ⟨.name, [.dataProducerType, .startDate]⟩

def idKey : NaturalKey :=
  ⟨.id, []⟩

def IsNamed (e : Entity k) : Prop :=
  (e.get? .name).isSome = true

instance (e : Entity k) : Decidable e.IsNamed :=
  inferInstanceAs (Decidable (_ = _))

def SharesId (a b : Entity k) : Prop :=
  (a.get? .id).isSome = true ∧ (b.get? .id).isSome = true ∧ agreeOn a b .id = true

instance (a b : Entity k) : Decidable (a.SharesId b) :=
  inferInstanceAs (Decidable (_ ∧ _ ∧ _))

theorem SharesId.symm (shared : a.SharesId b) : b.SharesId a :=
  ⟨shared.2.1, shared.1, Values.sameOption_symm shared.2.2⟩

theorem SharesId.trans (first : a.SharesId b) (second : b.SharesId c) : a.SharesId c :=
  ⟨first.1, second.2.1, Values.sameOption_trans first.2.2 second.2.2⟩

private theorem SharesId.sameBy (shared : a.SharesId b) : sameBy idKey a b = true :=
  sameBy_iff.mpr (.inl ⟨shared.1, shared.2.1, fun f member => by
    rw [List.mem_singleton.mp member]
    exact shared.2.2⟩)

private theorem sharesId_or_equal_of_sameBy (agree : sameBy idKey a b = true) :
    a.SharesId b ∨ a.equal b = true := by
  rcases sameBy_iff.mp agree with ⟨hasA, hasB, fields⟩ | ⟨_, _, equal⟩
  · exact .inl ⟨hasA, hasB, fields .id (by simp [idKey])⟩
  · exact .inr equal

private theorem sharesId_of_sameBy (agree : sameBy idKey a b = true) (named : a.IsNamed)
    (unnamed : ¬b.IsNamed) : a.SharesId b := by
  refine (sharesId_or_equal_of_sameBy agree).resolve_right fun equal => unnamed ?_
  exact (Values.isSome_eq_of_sameOption (agreeOn_of_equal equal .name)).symm.trans named

section

variable {p q r : Entity .dataProducer}

private theorem same_of_named (namedP : p.IsNamed) (namedQ : q.IsNamed) :
    p.same q = sameBy nameKey p q := by
  have both : bothHave? p q .name = some (agreeOn p q .name) := by
    rw [bothHave?_eq, if_pos ⟨namedP, namedQ⟩]
  simp only [same, Kind.naturalKey?, sameBy, nameKey, both]

private theorem same_of_unnamed (unnamed : ¬(p.IsNamed ∧ q.IsNamed)) :
    p.same q = sameBy idKey p q := by
  have notBoth : bothHave? p q .name = none := by
    rw [bothHave?_eq]
    exact if_neg unnamed
  simp only [same, Kind.naturalKey?, notBoth, sameWithoutKey, Kind.fallsBackToId, if_true, sameBy,
    idKey]
  cases bothHave? p q .id <;> simp

theorem SharesId.same (shared : p.SharesId q) (unnamed : ¬(p.IsNamed ∧ q.IsNamed)) :
    p.same q = true := by
  rw [same_of_unnamed unnamed]
  exact shared.sameBy

theorem sharesId_of_same (agree : p.same q = true) (named : p.IsNamed) (unnamed : ¬q.IsNamed) :
    p.SharesId q := by
  rw [same_of_unnamed fun both => unnamed both.2] at agree
  exact sharesId_of_sameBy agree named unnamed

end

private theorem exists_sameBy_or_equal (a b : Entity k) :
    (∃ key, a.same b = sameBy key a b ∧ b.same a = sameBy key b a) ∨
      (a.same b = a.equal b ∧ b.same a = b.equal a) := by
  cases natural : k.naturalKey? with
  | none => exact .inr ⟨same_eq_equal natural a b, same_eq_equal natural b a⟩
  | some key =>
      cases byId : k.fallsBackToId with
      | false =>
          exact .inl ⟨key, same_eq_sameBy natural byId a b, same_eq_sameBy natural byId b a⟩
      | true =>
          obtain rfl := Kind.eq_dataProducer_of_fallsBackToId byId
          by_cases named : a.IsNamed ∧ b.IsNamed
          · exact .inl ⟨nameKey, same_of_named named.1 named.2, same_of_named named.2 named.1⟩
          · exact .inl ⟨idKey, same_of_unnamed named, same_of_unnamed fun both => named both.symm⟩

private theorem same_of_equal (agree : a.equal b = true) : a.same b = true := by
  rcases exists_sameBy_or_equal a b with ⟨key, byKey, _⟩ | ⟨byValue, _⟩
  · rw [byKey]
    exact sameBy_of_equal agree
  · rw [byValue]
    exact agree

theorem same_refl (known : a.NaNFree) : a.same a = true :=
  same_of_equal (equal_refl known)

theorem same_symm (agree : a.same b = true) : b.same a = true := by
  rcases exists_sameBy_or_equal a b with ⟨key, byKey, byKey'⟩ | ⟨byValue, byValue'⟩
  · rw [byKey] at agree
    rw [byKey']
    exact sameBy_symm agree
  · rw [byValue] at agree
    rw [byValue']
    exact a.equal_symm b agree

theorem same_trans (noId : k.fallsBackToId = false) (first : a.same b = true)
    (second : b.same c = true) : a.same c = true := by
  cases natural : k.naturalKey? with
  | none =>
      rw [same_eq_equal natural] at first second ⊢
      exact a.equal_trans b c first second
  | some key =>
      rw [same_eq_sameBy natural noId] at first second ⊢
      exact sameBy_trans first second

/-- If `r` has no name but the id of `p`, then name and id say the same about `p` and `q`. -/
def IdFollowsName (p q r : Entity .dataProducer) : Prop :=
  p.IsNamed → q.IsNamed → ¬r.IsNamed → p.SharesId r → (p.same q = true ↔ p.SharesId q)

instance (p q r : Entity .dataProducer) : Decidable (p.IdFollowsName q r) :=
  inferInstanceAs (Decidable (_ → _ → _ → _ → (_ ↔ _)))

/-- Only of three producers two of which have a name the ids may say something else than the
names. -/
theorem same_trans_of_names {p q r : Entity .dataProducer} (outer : p.IdFollowsName r q)
    (left : q.IdFollowsName p r) (right : q.IdFollowsName r p)
    (first : p.same q = true) (second : q.same r = true) : p.same r = true := by
  by_cases namedQ : q.IsNamed
  · by_cases namedP : p.IsNamed
    · by_cases namedR : r.IsNamed
      · rw [same_of_named namedP namedQ] at first
        rw [same_of_named namedQ namedR] at second
        rw [same_of_named namedP namedR]
        exact sameBy_trans first second
      · have shared := sharesId_of_same second namedQ namedR
        have same := (left namedQ namedP namedR shared).mp (same_symm first)
        exact (same.symm.trans shared).same fun both => namedR both.2
    · have shared := sharesId_of_same (same_symm first) namedQ namedP
      by_cases namedR : r.IsNamed
      · have same := (right namedQ namedR namedP shared).mp second
        exact (shared.symm.trans same).same fun both => namedP both.1
      · have shared' := sharesId_of_same second namedQ namedR
        exact (shared.symm.trans shared').same fun both => namedP both.1
  · by_cases named : p.IsNamed ∧ r.IsNamed
    · have shared := sharesId_of_same first named.1 namedQ
      have shared' := sharesId_of_same (same_symm second) named.2 namedQ
      exact (outer named.1 named.2 namedQ shared).mpr (shared.trans shared'.symm)
    · rw [same_of_unnamed fun both => namedQ both.2] at first
      rw [same_of_unnamed fun both => namedQ both.1] at second
      rw [same_of_unnamed named]
      exact sameBy_trans first second

end Entity

namespace AnyEntity

variable {a b c : AnyEntity}

def NaNFree (e : AnyEntity) : Prop :=
  e.entity.NaNFree

instance (e : AnyEntity) : Decidable e.NaNFree :=
  inferInstanceAs (Decidable e.entity.NaNFree)

@[simp] theorem same_mk {k : Kind} (a b : Entity k) : same ⟨k, a⟩ ⟨k, b⟩ = a.same b := by
  simp [same, as?]

theorem kind_eq_of_same (agree : a.same b = true) : a.kind = b.kind := by
  refine Decidable.byContradiction fun other => ?_
  simp [same, as?, Ne.symm other] at agree

theorem same_refl (known : a.NaNFree) : a.same a = true := by
  rw [same_mk]
  exact Entity.same_refl known

theorem same_symm (agree : a.same b = true) : b.same a = true := by
  have alike := kind_eq_of_same agree
  obtain ⟨kind, a⟩ := a
  obtain ⟨_, b⟩ := b
  cases alike
  rw [same_mk] at agree ⊢
  exact Entity.same_symm agree

end AnyEntity

end ShoreMetadata
