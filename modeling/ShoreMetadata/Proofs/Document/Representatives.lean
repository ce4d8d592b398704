import Mathlib.Data.List.Pairwise
import ShoreMetadata.Proofs.Document.Basic
import ShoreMetadata.Proofs.Entity.Identity

/-! What is kept of entities that arrive one after the other: one of each, in
whichever order they come, in a document and in a list slot. -/

namespace ShoreMetadata

section

variable {α : Type} {same : α → α → Bool} {all kept arrivals : List α}

def keepNew (same : α → α → Bool) (kept : List α) (e : α) : List α :=
  if kept.any fun other => same other e then kept else kept ++ [e]

/-- What is kept of a list: different elements of it, to one of which each is the same. -/
structure OneOfEach (same : α → α → Bool) (all kept : List α) : Prop where
  mem_of_kept : ∀ e ∈ kept, e ∈ all
  distinct : kept.Pairwise fun a b => same a b = false
  unique : ∀ e ∈ all, ∃! r, r ∈ kept ∧ same r e = true

theorem prefix_keepNew (kept : List α) (e : α) : kept <+: keepNew same kept e := by
  rw [keepNew]
  split
  · exact List.prefix_rfl
  · exact List.prefix_append kept [e]

theorem prefix_foldl_keepNew (kept arrivals : List α) :
    kept <+: arrivals.foldl (keepNew same) kept := by
  induction arrivals generalizing kept with
  | nil => exact List.prefix_rfl
  | cons e rest ih => exact (prefix_keepNew kept e).trans (ih _)

private theorem mem_of_mem_keepNew {x e : α} (member : x ∈ keepNew same kept e) :
    x ∈ kept ∨ x = e := by
  rw [keepNew] at member
  split at member
  · exact .inl member
  · simpa using member

private theorem mem_of_mem_foldl_keepNew {x : α} (member : x ∈ arrivals.foldl (keepNew same) kept) :
    x ∈ kept ∨ x ∈ arrivals := by
  induction arrivals generalizing kept with
  | nil => exact .inl member
  | cons e rest ih =>
      rcases ih member with before | later
      · exact (mem_of_mem_keepNew before).imp_right fun new => by simp [new]
      · exact .inr (List.mem_cons_of_mem e later)

private theorem pairwise_keepNew {e : α} (distinct : kept.Pairwise fun a b => same a b = false) :
    (keepNew same kept e).Pairwise fun a b => same a b = false := by
  rw [keepNew]
  split
  · exact distinct
  · rename_i new
    rw [List.pairwise_append]
    refine ⟨distinct, List.pairwise_singleton .., fun other member x single => ?_⟩
    rw [List.mem_singleton.mp single]
    simpa using (List.any_eq_false.mp (Bool.not_eq_true _ ▸ new)) other member

theorem pairwise_foldl_keepNew (distinct : kept.Pairwise fun a b => same a b = false) :
    (arrivals.foldl (keepNew same) kept).Pairwise fun a b => same a b = false := by
  induction arrivals generalizing kept with
  | nil => exact distinct
  | cons e rest ih => exact ih (pairwise_keepNew distinct)

theorem exists_mem_keepNew (kept : List α) {e : α} (reflexive : same e e = true) :
    ∃ r ∈ keepNew same kept e, same r e = true := by
  rw [keepNew]
  split
  · rename_i held
    simpa using held
  · exact ⟨e, by simp, reflexive⟩

private theorem exists_mem_foldl_keepNew (kept : List α) {e : α} (member : e ∈ arrivals)
    (reflexive : same e e = true) :
    ∃ r ∈ arrivals.foldl (keepNew same) kept, same r e = true := by
  induction arrivals generalizing kept with
  | nil => cases member
  | cons first rest ih =>
      rcases List.mem_cons.mp member with rfl | later
      · obtain ⟨r, held, agree⟩ := exists_mem_keepNew kept reflexive
        exact ⟨r, (prefix_foldl_keepNew _ rest).subset held, agree⟩
      · exact ih (keepNew same kept first) later

/-- Of elements on which sameness is an equivalence one of each is kept, in every order of
arrival. -/
theorem oneOfEach_foldl_keepNew (reflexive : ∀ e ∈ all, same e e = true)
    (symmetric : ∀ a b, same a b = true → same b a = true)
    (transitive : ∀ a ∈ all, ∀ b ∈ all, ∀ c ∈ all,
      same a b = true → same b c = true → same a c = true)
    (perm : arrivals.Perm all) : OneOfEach same all (arrivals.foldl (keepNew same) []) := by
  have fromAll : ∀ e ∈ arrivals.foldl (keepNew same) [], e ∈ all := fun e member =>
    perm.mem_iff.mp ((mem_of_mem_foldl_keepNew member).resolve_left (by simp))
  have distinct : (arrivals.foldl (keepNew same) []).Pairwise fun a b => same a b = false :=
    pairwise_foldl_keepNew .nil
  refine ⟨fromAll, distinct, fun e member => ?_⟩
  obtain ⟨r, held, agree⟩ := exists_mem_foldl_keepNew []
    (perm.mem_iff.mpr member) (reflexive e member)
  refine ⟨r, ⟨held, agree⟩, fun r' ⟨held', agree'⟩ => ?_⟩
  by_contra other
  have : Std.Symm fun a b => same a b = false := ⟨fun a b no =>
    Bool.eq_false_iff.mpr fun yes => Bool.eq_false_iff.mp no (symmetric b a yes)⟩
  have differ : same r' r = false := distinct.forall held' held other
  have agrees := transitive r' (fromAll r' held') e member r (fromAll r held) agree'
    (symmetric r e agree)
  rw [differ] at agrees
  cases agrees

end

private theorem Members.toList_accept_eq_keepNew {same : {k : Kind} → Entity k → Entity k → Bool}
    {k : Kind} : (m : Members .many k) → (e : Entity k) →
      (m.accept same e).toList = keepNew same m.toList e
  | .nil, _ => rfl
  | .cons first rest, e => by
      have tail : (rest.accept same e).toList = _ := toList_accept_eq_keepNew rest e
      rw [keepNew] at tail ⊢
      rw [accept, toList, List.any_cons]
      cases agree : same first e with
      | true => rfl
      | false =>
          simp only [Bool.false_eq_true, if_false, Bool.false_or, toList, tail]
          split <;> rfl

theorem Members.toList_accept_of_many {same : {k : Kind} → Entity k → Entity k → Bool}
    {a : Arity} {k : Kind} (many : a = .many) (m : Members a k) (e : Entity k) :
    (m.accept same e).toList = keepNew same m.toList e := by
  subst many
  exact toList_accept_eq_keepNew m e

private theorem Members.toList_foldl_accept {k : Kind} (m : Members .many k)
    (arrivals : List (Entity k)) :
    (arrivals.foldl (accept Entity.same) m).toList =
      arrivals.foldl (keepNew Entity.same) m.toList := by
  induction arrivals generalizing m with
  | nil => rfl
  | cons e rest ih =>
      rw [List.foldl_cons, ih, toList_accept_eq_keepNew]
      rfl

namespace Document

private theorem get_insert_eq_keepNew (d : Document) (e : AnyEntity) (k : Kind) :
    (d.insert e).1.get k = (e.as? k).toList.foldl (keepNew Entity.same) (d.get k) := by
  cases held : d.holds e with
  | false =>
      rw [get_insert held]
      obtain ⟨kind, entity⟩ := e
      by_cases alike : kind = k
      · subst alike
        rw [holds] at held
        simp [AnyEntity.as?, keepNew, held]
      · simp [AnyEntity.as?, alike]
  | true =>
      have unchanged : (d.insert e).1 = d := by
        rw [insert, held, if_pos rfl]
      rw [unchanged]
      obtain ⟨kind, entity⟩ := e
      by_cases alike : kind = k
      · subst alike
        rw [holds] at held
        simp [AnyEntity.as?, keepNew, held]
      · simp [AnyEntity.as?, alike]

theorem get_insertAll_eq_keepNew (d : Document) (arrivals : List AnyEntity) (k : Kind) :
    (d.insertAll arrivals).get k =
      (arrivals.filterMap (·.as? k)).foldl (keepNew Entity.same) (d.get k) := by
  induction arrivals generalizing d with
  | nil => rfl
  | cons e rest ih =>
      change ((d.insert e).1.insertAll rest).get k = _
      rw [ih, get_insert_eq_keepNew, List.filterMap_cons]
      cases e.as? k <;> rfl

end Document

namespace AnyEntity

variable {entities arrivals : List AnyEntity}

private theorem oneOfEach_toList {d : Document}
    (kinds : ∀ k, OneOfEach Entity.same (entities.filterMap (·.as? k)) (d.get k)) :
    OneOfEach same entities d.toList := by
  refine ⟨fun e member => ?_, ?_, fun ⟨k, e⟩ member => ?_⟩
  · exact mem_filterMap_as?.mp ((kinds e.kind).mem_of_kept _ (Document.mem_toList.mp member))
  · rw [Document.toList_eq, List.pairwise_flatMap]
    refine ⟨fun k _ => ?_, ?_⟩
    · rw [List.pairwise_map]
      exact (kinds k).distinct.imp fun differ => by rw [same_mk, differ]
    · have nodup : Kind.all.Nodup := by decide
      refine nodup.imp fun {j k} other x inJ y inK => ?_
      obtain ⟨a, _, rfl⟩ := List.mem_map.mp inJ
      obtain ⟨b, _, rfl⟩ := List.mem_map.mp inK
      exact Bool.eq_false_iff.mpr fun agree => other (kind_eq_of_same agree)
  · obtain ⟨r, ⟨held, agree⟩, only⟩ := (kinds k).unique e (mem_filterMap_as?.mpr member)
    refine ⟨⟨k, r⟩, ⟨Document.mem_toList.mpr held, by rw [same_mk, agree]⟩, ?_⟩
    rintro ⟨kind, r'⟩ ⟨held', agree'⟩
    cases kind_eq_of_same agree'
    rw [same_mk] at agree'
    rw [only r' ⟨Document.mem_toList.mp held', agree'⟩]

/-- Wherever a producer without a name has the id of one with a name, names and ids tell the
same producers apart from that one. -/
def IdsFollowNames (entities : List AnyEntity) : Prop :=
  ∀ p ∈ entities.filterMap (·.as? .dataProducer), ∀ q ∈ entities.filterMap (·.as? .dataProducer),
    ∀ r ∈ entities.filterMap (·.as? .dataProducer), p.IdFollowsName q r

instance (entities : List AnyEntity) : Decidable (IdsFollowNames entities) :=
  inferInstanceAs (Decidable (∀ _ ∈ _, ∀ _ ∈ _, ∀ _ ∈ _, _))

theorem same_trans (follow : IdsFollowNames entities) {a b c : AnyEntity} (memberA : a ∈ entities)
    (memberB : b ∈ entities) (memberC : c ∈ entities) (first : a.same b = true)
    (second : b.same c = true) : a.same c = true := by
  have alike := kind_eq_of_same first
  have alike' := kind_eq_of_same second
  obtain ⟨k, a⟩ := a
  obtain ⟨_, b⟩ := b
  obtain ⟨_, c⟩ := c
  cases alike
  cases alike'
  rw [same_mk] at first second ⊢
  cases byId : k.fallsBackToId with
  | false => exact Entity.same_trans byId first second
  | true =>
      obtain rfl := Kind.eq_dataProducer_of_fallsBackToId byId
      rw [← mem_filterMap_as?] at memberA memberB memberC
      exact Entity.same_trans_of_names (follow a memberA c memberC b memberB)
        (follow b memberB a memberA c memberC) (follow b memberB c memberC a memberA) first second

/-- The condition on names and ids is also necessary. -/
theorem idsFollowNames_of_transitive
    (transitive : ∀ a ∈ entities, ∀ b ∈ entities, ∀ c ∈ entities,
      a.same b = true → b.same c = true → a.same c = true) : IdsFollowNames entities := by
  have trans : ∀ a ∈ entities.filterMap (·.as? .dataProducer),
      ∀ b ∈ entities.filterMap (·.as? .dataProducer),
      ∀ c ∈ entities.filterMap (·.as? .dataProducer),
      a.same b = true → b.same c = true → a.same c = true := by
    intro a memberA b memberB c memberC
    simpa using transitive ⟨_, a⟩ (mem_filterMap_as?.mp memberA) ⟨_, b⟩
      (mem_filterMap_as?.mp memberB) ⟨_, c⟩ (mem_filterMap_as?.mp memberC)
  intro p memberP q memberQ r memberR namedP namedQ unnamed shared
  have sameP : p.same r = true := shared.same fun both => unnamed both.2
  constructor
  · intro agree
    have sameQ := trans q memberQ p memberP r memberR (Entity.same_symm agree) sameP
    exact shared.trans (Entity.sharesId_of_same sameQ namedQ unnamed).symm
  · intro sharedQ
    have ofR : r.SharesId q := shared.symm.trans sharedQ
    exact trans p memberP r memberR q memberQ sameP (ofR.same fun both => unnamed both.1)

/-- Entities without NaNs: sameness is reflexive and symmetric on them, it is transitive exactly
if their ids follow their names, and then a document and a list slot keep one of each, in
whichever order they arrive. -/
theorem one_of_each_in_any_order (known : ∀ e ∈ entities, e.NaNFree) :
    (∀ a ∈ entities, a.same a = true) ∧
      (∀ a ∈ entities, ∀ b ∈ entities, a.same b = true → b.same a = true) ∧
      ((∀ a ∈ entities, ∀ b ∈ entities, ∀ c ∈ entities,
          a.same b = true → b.same c = true → a.same c = true) ↔ IdsFollowNames entities) ∧
      (IdsFollowNames entities → ∀ arrivals, arrivals.Perm entities →
        OneOfEach same entities (Document.empty.insertAll arrivals).toList ∧
          ∀ k, OneOfEach Entity.same (entities.filterMap (·.as? k))
            ((arrivals.filterMap (·.as? k)).foldl (Members.accept Entity.same)
              (.nil : Members .many k)).toList) := by
  refine ⟨fun a member => same_refl (known a member), fun a _ b _ => same_symm,
    ⟨idsFollowNames_of_transitive, fun follow a memberA b memberB c memberC =>
      same_trans follow memberA memberB memberC⟩, fun follow arrivals perm => ?_⟩
  have kept : ∀ k, OneOfEach Entity.same (entities.filterMap (·.as? k))
      ((arrivals.filterMap (·.as? k)).foldl (keepNew Entity.same) []) := by
    intro k
    apply oneOfEach_foldl_keepNew
    · exact fun e member => Entity.same_refl (known ⟨k, e⟩ (mem_filterMap_as?.mp member))
    · exact fun a b => Entity.same_symm
    · intro a memberA b memberB c memberC
      simpa using same_trans follow (mem_filterMap_as?.mp memberA) (mem_filterMap_as?.mp memberB)
        (mem_filterMap_as?.mp memberC)
    · exact perm.filterMap _
  refine ⟨oneOfEach_toList fun k => ?_, fun k => ?_⟩
  · rw [Document.get_insertAll_eq_keepNew, Document.get_empty]
    exact kept k
  · rw [Members.toList_foldl_accept]
    exact kept k

def producer (name : Option String) (id : Int64) : AnyEntity :=
  ⟨.dataProducer, ((Entity.empty .dataProducer).set .name name).set .id (some id)⟩

theorem one_of_each_in_any_order_producers :
    (∀ e ∈ [producer (some "x") 1, producer none 1, producer (some "y") 2], e.NaNFree) ∧
      IdsFollowNames [producer (some "x") 1, producer none 1, producer (some "y") 2] ∧
      OneOfEach same [producer (some "x") 1, producer none 1, producer (some "y") 2]
        (Document.empty.insertAll
          [producer none 1, producer (some "y") 2, producer (some "x") 1]).toList := by
  have known : ∀ e ∈ [producer (some "x") 1, producer none 1, producer (some "y") 2],
      e.NaNFree := by decide +kernel
  have follow : IdsFollowNames
      [producer (some "x") 1, producer none 1, producer (some "y") 2] := by decide +kernel
  have rotated : [producer none 1, producer (some "y") 2, producer (some "x") 1].Perm
      [producer (some "x") 1, producer none 1, producer (some "y") 2] :=
    List.perm_append_singleton _ [_, _]
  exact ⟨known, follow, ((one_of_each_in_any_order known).2.2.2 follow _ rotated).1⟩

/-- A producer without a name is the same as each of two others that are not the same: what a
document keeps of the three depends on the order. -/
theorem same_not_transitive :
    (∀ e ∈ [producer (some "x") 1, producer none 1, producer (some "y") 1], e.NaNFree) ∧
      (producer (some "x") 1).same (producer none 1) = true ∧
      (producer none 1).same (producer (some "y") 1) = true ∧
      (producer (some "x") 1).same (producer (some "y") 1) = false ∧
      (Document.empty.insertAll
        [producer (some "x") 1, producer none 1, producer (some "y") 1]).size = 2 ∧
      (Document.empty.insertAll
        [producer none 1, producer (some "x") 1, producer (some "y") 1]).size = 1 := by
  decide +kernel

end AnyEntity

end ShoreMetadata
