import ShoreMetadata.Entity.Identity
import ShoreMetadata.Proofs.Entity.Values

/-! Entities as trees: what their slots hold, induction over what they hold, and
properties of every entity in them. -/

namespace ShoreMetadata

namespace Members

@[simp] theorem toList_empty (a : Arity) {k : Kind} : (empty a : Members a k).toList = [] := by
  cases a <;> rfl

theorem ext {a : Arity} {k : Kind} : {m m' : Members a k} → m.toList = m'.toList → m = m'
  | .absent, .absent, _ => rfl
  | .present _, .present _, same => by
      simp only [toList, List.cons.injEq, and_true] at same
      rw [same]
  | .nil, .nil, _ => rfl
  | .cons _ _, .cons _ _, same => by
      simp only [toList, List.cons.injEq] at same
      rw [same.1, ext same.2]
  | .absent, .present _, same => by cases same
  | .present _, .absent, same => by cases same
  | .nil, .cons _ _, same => by cases same
  | .cons _ _, .nil, same => by cases same

theorem length_toList_le {k : Kind} : (m : Members .one k) → m.toList.length ≤ 1
  | .absent => by simp [toList]
  | .present _ => by simp [toList]

theorem toList_accept {same : {k : Kind} → Entity k → Entity k → Bool} :
    {a : Arity} → {k : Kind} → (m : Members a k) → (e : Entity k) →
      (∀ other ∈ m.toList, same other e = false) → (a = .one → m.toList = []) →
      (m.accept same e).toList = m.toList ++ [e]
  | _, _, .absent, _, _, _ => rfl
  | _, _, .present _, _, _, place => by cases place rfl
  | _, _, .nil, _, _, _ => rfl
  | _, _, .cons first rest, e, new, _ => by
      simp only [toList, List.forall_mem_cons] at new
      simp [accept, new.1, toList, toList_accept rest e new.2 (by simp)]

end Members

namespace Links

theorem get_update_same : {ss : List Slot} → (links : Links ss) → {s : Slot} → s ∈ ss →
    (f : Members s.arity s.target → Members s.arity s.target) →
    (links.update s f).get s = f (links.get s)
  | _, .nil, _, member, _ => by cases member
  | t :: _, .cons members rest, s, member, f => by
      by_cases same : t = s
      · subst same
        simp [update, get]
      · have more := (List.mem_cons.mp member).resolve_left (Ne.symm same)
        simp [update, get, same, get_update_same rest more]

theorem get_update_of_ne : {ss : List Slot} → (links : Links ss) → {s t : Slot} → s ≠ t →
    (f : Members s.arity s.target → Members s.arity s.target) →
    (links.update s f).get t = links.get t
  | _, .nil, _, _, _, _ => rfl
  | u :: _, .cons members rest, s, t, other, f => by
      by_cases same : u = s
      · subst same
        simp [update, get, other]
      · simp [update, get, same, get_update_of_ne rest other]

theorem update_update_of_ne : {ss : List Slot} → (links : Links ss) → {s t : Slot} → s ≠ t →
    (f : Members s.arity s.target → Members s.arity s.target) →
    (g : Members t.arity t.target → Members t.arity t.target) →
    (links.update s f).update t g = (links.update t g).update s f
  | _, .nil, _, _, _, _, _ => rfl
  | u :: _, .cons members rest, s, t, other, f, g => by
      by_cases first : u = s
      · subst first
        simp [update, other]
      · by_cases second : u = t
        · subst second
          simp [update, first]
        · simp [update, first, second, update_update_of_ne rest other]

theorem get_empty (ss : List Slot) (s : Slot) : (empty ss).get s = .empty s.arity := by
  induction ss with
  | nil => rfl
  | cons t ss ih =>
      by_cases same : t = s
      · subst same
        simp [empty, get]
      · simp [empty, get, same, ih]

theorem get_of_not_mem : {ss : List Slot} → (links : Links ss) → {s : Slot} → s ∉ ss →
    links.get s = .empty s.arity
  | _, .nil, _, _ => rfl
  | t :: _, .cons members rest, s, missing => by
      rw [List.mem_cons, not_or] at missing
      simp [get, Ne.symm missing.1, get_of_not_mem rest missing.2]

theorem get_cons_same {s : Slot} {ss : List Slot} (members : Members s.arity s.target)
    (rest : Links ss) : (cons members rest).get s = members := by
  simp [get]

theorem get_cons_of_mem {s t : Slot} {ss : List Slot} (missing : s ∉ ss) (member : t ∈ ss)
    (members : Members s.arity s.target) (rest : Links ss) :
    (cons members rest).get t = rest.get t := by
  have apart : s ≠ t := by
    rintro rfl
    exact missing member
  simp [get, apart]

theorem ext : {ss : List Slot} → ss.Nodup → {a b : Links ss} →
    (∀ s ∈ ss, a.get s = b.get s) → a = b
  | _, _, .nil, .nil, _ => rfl
  | t :: _, distinct, .cons first rest, .cons first' rest', agree => by
      rw [List.nodup_cons] at distinct
      have firstEq : first = first' := by
        simpa only [get_cons_same] using agree t (by simp)
      have restEq : rest = rest' := ext distinct.2 fun s member => by
        simpa only [get_cons_of_mem distinct.1 member] using agree s (by simp [member])
      rw [firstEq, restEq]

end Links

namespace Kind

theorem nodup_fields (k : Kind) : k.fields.Nodup := by
  cases k <;> decide

theorem nodup_slots (k : Kind) : k.slots.Nodup := by
  cases k <;> decide

end Kind

namespace Entity

variable {k : Kind}

theorem members_of_not_mem (e : Entity k) {s : Slot} (missing : s ∉ k.slots) :
    e.members s = [] := by
  rw [members, Links.get_of_not_mem _ missing, Members.toList_empty]

theorem length_members_le (e : Entity k) {s : Slot} (one : s.arity = .one) :
    (e.members s).length ≤ 1 := by
  rw [members]
  generalize e.links.get s = members
  revert members
  rw [one]
  exact Members.length_toList_le

theorem get?_of_not_mem (e : Entity k) {f : Field} (missing : f ∉ k.fields) :
    e.get? f = none :=
  e.values.get?_of_not_mem missing

theorem mem_fields_of_get? {e : Entity k} {f : Field} {v : f.Value} (stored : e.get? f = some v) :
    f ∈ k.fields := by
  by_cases member : f ∈ k.fields
  · exact member
  · rw [e.get?_of_not_mem member] at stored
    cases stored

theorem ext {a b : Entity k} (values : ∀ f ∈ k.fields, a.get? f = b.get? f)
    (version : a.version = b.version) (members : ∀ s ∈ k.slots, a.members s = b.members s) :
    a = b := by
  cases a with
  | mk valuesA versionA linksA =>
      cases b with
      | mk valuesB versionB linksB =>
          have valuesEq : valuesA = valuesB := Values.ext k.nodup_fields values
          have linksEq : linksA = linksB :=
            Links.ext k.nodup_slots fun s member => Members.ext (members s member)
          cases version
          rw [valuesEq, linksEq]

@[simp] theorem version_set (e : Entity k) (f : Field) (value : Option f.Value) :
    (e.set f value).version = e.version := rfl

@[simp] theorem members_set (e : Entity k) (f : Field) (value : Option f.Value) (s : Slot) :
    (e.set f value).members s = e.members s := rfl

theorem get?_set_same (e : Entity k) {f : Field} (member : f ∈ k.fields)
    (value : Option f.Value) : (e.set f value).get? f = value :=
  e.values.get?_set_same member value

theorem get?_set_of_ne (e : Entity k) {f g : Field} (other : f ≠ g) (value : Option f.Value) :
    (e.set f value).get? g = e.get? g :=
  e.values.get?_set_of_ne other value

theorem set_set_same (e : Entity k) (f : Field) (first second : Option f.Value) :
    (e.set f first).set f second = e.set f second :=
  congrArg (mk · e.version e.links) (e.values.set_set_same f first second)

theorem set_set_of_ne (e : Entity k) {f g : Field} (other : f ≠ g) (first : Option f.Value)
    (second : Option g.Value) : (e.set f first).set g second = (e.set g second).set f first :=
  congrArg (mk · e.version e.links) (e.values.set_set_of_ne other first second)

@[simp] theorem get?_empty (f : Field) : (empty k).get? f = none :=
  Values.get?_absent f

@[simp] theorem members_empty (s : Slot) : (empty k).members s = [] := by
  change ((Links.empty k.slots).get s).toList = []
  rw [Links.get_empty, Members.toList_empty]

mutual
theorem induction {motive : {k : Kind} → Entity k → Prop}
    (step : ∀ {k : Kind} (e : Entity k), (∀ s, ∀ child ∈ e.members s, motive child) → motive e) :
    {k : Kind} → (e : Entity k) → motive e
  | _, .mk _ _ links =>
      step _ fun s child member => inductionLinks step links s child member

private theorem inductionLinks {motive : {k : Kind} → Entity k → Prop}
    (step : ∀ {k : Kind} (e : Entity k), (∀ s, ∀ child ∈ e.members s, motive child) → motive e) :
    {ss : List Slot} → (links : Links ss) → (s : Slot) → ∀ child ∈ (links.get s).toList,
      motive child
  | _, .nil, s, child, member => by
      rw [Links.get, Members.toList_empty] at member
      cases member
  | t :: _, .cons members rest, s, child, member => by
      by_cases same : t = s
      · subst same
        exact inductionMembers step members child (by simpa [Links.get] using member)
      · exact inductionLinks step rest s child (by simpa [Links.get, same] using member)

private theorem inductionMembers {motive : {k : Kind} → Entity k → Prop}
    (step : ∀ {k : Kind} (e : Entity k), (∀ s, ∀ child ∈ e.members s, motive child) → motive e) :
    {a : Arity} → {k : Kind} → (members : Members a k) → ∀ child ∈ members.toList, motive child
  | _, _, .absent, _, member => by cases member
  | _, _, .present e, child, member => by
      rw [Members.toList, List.mem_singleton] at member
      rw [member]
      exact induction step e
  | _, _, .nil, _, member => by cases member
  | _, _, .cons e rest, child, member => by
      rcases List.mem_cons.mp member with same | member
      · rw [same]
        exact induction step e
      · exact inductionMembers step rest child member
end

inductive Everywhere (P : (k : Kind) → Entity k → Prop) : (k : Kind) → Entity k → Prop
  | intro {k : Kind} {e : Entity k} (here : P k e)
    (inside : ∀ s, ∀ child ∈ e.members s, Everywhere P s.target child) : Everywhere P k e

namespace Everywhere

variable {P Q : (k : Kind) → Entity k → Prop} {e : Entity k}

theorem here (everywhere : Everywhere P k e) : P k e := by
  cases everywhere
  assumption

theorem inside (everywhere : Everywhere P k e) :
    ∀ s, ∀ child ∈ e.members s, Everywhere P s.target child := by
  cases everywhere
  assumption

theorem mono (imp : ∀ {k : Kind} (e : Entity k), P k e → Q k e) (everywhere : Everywhere P k e) :
    Everywhere Q k e := by
  induction everywhere with
  | intro here _ ih => exact .intro (imp _ here) ih

theorem both (first : Everywhere P k e) (second : Everywhere Q k e) :
    Everywhere (fun k x => P k x ∧ Q k x) k e := by
  induction first with
  | intro here _ ih =>
      exact .intro ⟨here, second.here⟩ fun s child member =>
        ih s child member (second.inside s child member)

section

variable (P : (k : Kind) → Entity k → Prop) [∀ k e, Decidable (P k e)]

mutual
def decide : {k : Kind} → (e : Entity k) → Decidable (Everywhere P k e)
  | k, .mk values version links =>
      letI := decideSlot links
      decidable_of_iff (P k (.mk values version links) ∧
          ∀ s ∈ k.slots, ∀ child ∈ (links.get s).toList, Everywhere P s.target child) <| by
        constructor
        · rintro ⟨here, inside⟩
          refine .intro here fun s child member => inside s ?_ child member
          by_cases known : s ∈ k.slots
          · exact known
          · rw [members_of_not_mem _ known] at member
            cases member
        · intro everywhere
          exact ⟨everywhere.here, fun s _ => everywhere.inside s⟩

def decideSlot : {ss : List Slot} → (links : Links ss) → (s : Slot) →
    Decidable (∀ child ∈ (links.get s).toList, Everywhere P s.target child)
  | _, .nil, s => .isTrue fun child member => by
      rw [Links.get, Members.toList_empty] at member
      cases member
  | t :: _, .cons members rest, s =>
      if same : t = s then
        letI := decideMembers members
        decidable_of_iff (∀ child ∈ members.toList, Everywhere P t.target child) <| by
          subst same
          simp [Links.get]
      else
        letI := decideSlot rest s
        decidable_of_iff (∀ child ∈ (rest.get s).toList, Everywhere P s.target child) <| by
          simp [Links.get, same]

def decideMembers : {a : Arity} → {k : Kind} → (members : Members a k) →
    Decidable (∀ child ∈ members.toList, Everywhere P k child)
  | _, _, .absent => .isTrue fun _ member => by cases member
  | _, k, .present e =>
      letI := decide e
      decidable_of_iff (Everywhere P k e) (by simp [Members.toList])
  | _, _, .nil => .isTrue fun _ member => by cases member
  | _, k, .cons e rest =>
      letI := decide e
      letI := decideMembers rest
      decidable_of_iff (Everywhere P k e ∧ ∀ child ∈ rest.toList, Everywhere P k child)
        List.forall_mem_cons.symm
end

instance : Decidable (Everywhere P k e) :=
  decide P e

end

end Everywhere

theorem everywhere_of_forall {P : (k : Kind) → Entity k → Prop}
    (all : ∀ {k : Kind} (e : Entity k), P k e) (e : Entity k) : e.Everywhere P := by
  induction e using Entity.induction with
  | step e ih => exact .intro (all e) ih

end Entity

end ShoreMetadata
