import Mathlib.Algebra.GroupWithZero.Nat
import Mathlib.Data.List.Induction
import ShoreMetadata.Proofs.Document.Representatives

/-! Collections without duplicates: of what arrives, in its order, all that is not the same as
something kept before is kept. -/

namespace ShoreMetadata

section

variable {α : Type} {same : α → α → Bool} {arrivals kept : List α}

/-- What is kept of arrivals, one after the other. -/
inductive FirstsOf (same : α → α → Bool) : List α → List α → Prop
  | nil : FirstsOf same [] []
  | keep {arrivals kept : List α} {e : α} (before : FirstsOf same arrivals kept)
      (new : ∀ r ∈ kept, same r e = false) : FirstsOf same (arrivals ++ [e]) (kept ++ [e])
  | drop {arrivals kept : List α} {e r : α} (before : FirstsOf same arrivals kept)
      (held : r ∈ kept) (agree : same r e = true) : FirstsOf same (arrivals ++ [e]) kept

namespace FirstsOf

private theorem foldl_keepNew (same : α → α → Bool) (arrivals : List α) :
    FirstsOf same arrivals (arrivals.foldl (keepNew same) []) := by
  induction arrivals using List.reverseRecOn with
  | nil => exact .nil
  | append_singleton before e ih =>
      rw [List.foldl_append, List.foldl_cons, List.foldl_nil, keepNew]
      split
      · rename_i held
        obtain ⟨r, member, agree⟩ := List.any_eq_true.mp held
        exact .drop ih member agree
      · rename_i new
        refine .keep ih fun r member => ?_
        exact Bool.eq_false_iff.mpr fun agree => new (List.any_eq_true.mpr ⟨r, member, agree⟩)

theorem sublist (firsts : FirstsOf same arrivals kept) : kept.Sublist arrivals := by
  induction firsts with
  | nil => exact .refl []
  | keep _ _ ih => exact ih.append (.refl _)
  | drop _ _ _ ih => exact ih.trans (List.sublist_append_left _ _)

end FirstsOf

/-- A collection holds the firsts of what arrives: they are in the order of the arrivals, none is
the same as an earlier one, and of each arrival it tells whether one kept before is the same, or
it is kept itself. -/
structure HoldsFirsts (same : α → α → Bool) (arrivals kept : List α) : Prop where
  firsts : FirstsOf same arrivals kept
  sublist : kept.Sublist arrivals
  distinct : kept.Pairwise fun earlier later => same later earlier = false
  covers : ∀ before e after, arrivals = before ++ e :: after →
    ∃ early, FirstsOf same before early ∧ early <+: kept ∧
      ((∃ r ∈ early, same r e = true) ∨ early ++ [e] <+: kept)

theorem holdsFirsts_foldl_keepNew (symmetric : ∀ a b, same a b = true → same b a = true)
    (arrivals : List α) : HoldsFirsts same arrivals (arrivals.foldl (keepNew same) []) where
  firsts := .foldl_keepNew same arrivals
  sublist := (FirstsOf.foldl_keepNew same arrivals).sublist
  distinct := by
    have distinct : (arrivals.foldl (keepNew same) []).Pairwise fun a b => same a b = false :=
      pairwise_foldl_keepNew .nil
    refine distinct.imp fun {earlier later} differ => Bool.eq_false_iff.mpr fun agree => ?_
    rw [symmetric later earlier agree] at differ
    cases differ
  covers := by
    rintro before e after rfl
    refine ⟨before.foldl (keepNew same) [], .foldl_keepNew same before, ?_⟩
    rw [List.foldl_append, List.foldl_cons]
    generalize before.foldl (keepNew same) [] = early
    -- What arrives afterwards only comes behind what is kept by then.
    refine ⟨(prefix_keepNew early e).trans (prefix_foldl_keepNew _ after), ?_⟩
    have later : keepNew same early e <+: after.foldl (keepNew same) (keepNew same early e) :=
      prefix_foldl_keepNew _ after
    by_cases held : early.any fun other => same other e
    · exact .inl (by simpa using held)
    · exact .inr (by simpa [keepNew, held] using later)

end

namespace Buckets

theorem get_of_not_mem : {ks : List Kind} → (b : Buckets ks) → {k : Kind} → k ∉ ks → b.get k = []
  | _, .nil, _, _ => rfl
  | j :: _, .cons held rest, k, missing => by
      rw [List.mem_cons, not_or] at missing
      simp [get, Ne.symm missing.1, get_of_not_mem rest missing.2]

private theorem filterMap_toList : {ks : List Kind} → ks.Nodup → (b : Buckets ks) → (k : Kind) →
    b.toList.filterMap (·.as? k) = b.get k
  | _, _, .nil, _ => rfl
  | j :: _, distinct, .cons held rest, k => by
      rw [List.nodup_cons] at distinct
      rw [toList, List.filterMap_append, filterMap_toList distinct.2 rest k, List.filterMap_map]
      by_cases same : j = k
      · subst same
        have own : ((·.as? j) ∘ AnyEntity.mk j : Entity j → _) = some := by
          funext e
          simp [AnyEntity.as?]
        rw [own, get_of_not_mem rest distinct.1]
        simp [get]
      · have none : ((·.as? k) ∘ AnyEntity.mk j : Entity j → _) = fun _ => none := by
          funext e
          simp [AnyEntity.as?, same]
        rw [none]
        simp [get, same]

private theorem size_eq_length_toList :
    {ks : List Kind} → (b : Buckets ks) → b.size = b.toList.length
  | _, .nil => rfl
  | _, .cons entities rest => by
      rw [size, toList, List.length_append, List.length_map, size_eq_length_toList rest]

private theorem size_eq_sum_counts : {ks : List Kind} → (b : Buckets ks) →
    b.size = (b.counts.map Prod.snd).sum
  | _, .nil => rfl
  | _, .cons entities rest => by
      rw [size, counts, size_eq_sum_counts rest]
      cases entities with
      | nil => simp
      | cons e others => simp

end Buckets

namespace Document

/-- The buckets hold the firsts, each of its own kind, and are counted as they are. -/
structure Deduplicated (arrivals : List AnyEntity) (d : Document) : Prop where
  buckets : ∀ k, HoldsFirsts Entity.same (arrivals.filterMap (·.as? k)) (d.get k)
  kinds : ∀ k, d.toList.filterMap (·.as? k) = d.get k
  size_counts : d.size = (d.counts.map Prod.snd).sum
  size_toList : d.size = d.toList.length

theorem holdsFirsts_insertAll (arrivals : List AnyEntity) (k : Kind) :
    HoldsFirsts Entity.same (arrivals.filterMap (·.as? k)) ((empty.insertAll arrivals).get k) := by
  rw [get_insertAll_eq_keepNew, get_empty]
  exact holdsFirsts_foldl_keepNew (fun _ _ => Entity.same_symm) _

theorem insert_eq_false_iff (d : Document) (e : AnyEntity) :
    (d.insert e).2 = false ↔ (d.insert e).1 = d := by
  cases held : d.holds e with
  | true => simp [insert, held]
  | false =>
      have added : (d.insert e).2 = true := by simp [insert, held]
      refine iff_of_false (by simp [added]) fun unchanged => ?_
      have grown := get_insert held e.kind
      rw [unchanged] at grown
      simp [AnyEntity.as?] at grown

theorem deduplicated_insertAll (arrivals : List AnyEntity) :
    (empty.insertAll arrivals).Deduplicated arrivals where
  buckets := holdsFirsts_insertAll arrivals
  kinds := Buckets.filterMap_toList (by decide) _
  size_counts := Buckets.size_eq_sum_counts _
  size_toList := Buckets.size_eq_length_toList _

end Document

end ShoreMetadata
