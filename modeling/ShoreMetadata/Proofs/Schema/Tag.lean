import ShoreMetadata.Schema.Tag
import ShoreMetadata.Xml.Element

/-! The tags of different roles differ, so that a tag tells its role. -/

namespace ShoreMetadata

open Text

namespace Role

theorem mem_all (role : Role) : role ∈ all := by
  cases role with
  | entity k => simp [all, Kind.mem_all k]
  | wrapper w => cases w <;> decide
  | description => decide

private theorem eq_of_common_tag :
    ∀ first ∈ all, ∀ second ∈ all, ∀ a ∈ first.tags, ∀ b ∈ second.tags,
    lower a = lower b → first = second := by
  decide +kernel

theorem ofTag?_eq_some_iff {tag : String} {role : Role} :
    ofTag? tag = some role ↔ ∃ a ∈ role.tags, sameName tag a = true := by
  constructor
  · intro found
    have spelled := List.find?_some found
    simpa using spelled
  · rintro ⟨a, member, same⟩
    cases found : ofTag? tag with
    | none =>
        have missing := List.find?_eq_none.mp found role role.mem_all
        exact absurd (List.any_eq_true.mpr ⟨a, member, same⟩) missing
    | some other =>
        have spelled := List.find?_some found
        obtain ⟨b, otherMember, otherSame⟩ := List.any_eq_true.mp spelled
        rw [sameName_iff] at same otherSame
        rw [eq_of_common_tag other other.mem_all role role.mem_all b otherMember a member
          (otherSame.symm.trans same)]

theorem ofTag?_of_sameName {tag other : String} (same : sameName tag other = true) :
    ofTag? tag = ofTag? other := by
  rw [ofTag?, ofTag?, sameName_congr same]

def kind? : Role → Option Kind
  | .entity k => some k
  | .wrapper w => some w.contentKind
  | .description => none

end Role

theorem Slot.contentKind_of_wrapper? {s : Slot} {w : Wrapper} (wrapped : s.wrapper? = some w) :
    w.contentKind = s.target := by
  cases s <;> cases wrapped <;> rfl

theorem Wrapper.role_tag (w : Wrapper) (dialect : Dialect) :
    Role.ofTag? (w.tag dialect) = some (.wrapper w) := by
  refine Role.ofTag?_eq_some_iff.mpr ⟨w.tag dialect, ?_, sameName_iff.mpr rfl⟩
  cases dialect <;> simp [Role.tags]

theorem role_descriptionTag : Role.ofTag? descriptionTag = some .description :=
  Role.ofTag?_eq_some_iff.mpr ⟨_, List.mem_singleton_self _, sameName_iff.mpr rfl⟩

namespace Xml.Element

theorem hasTagIn_iff {e : Element} {tags : List String} :
    e.hasTagIn tags = true ↔ ∃ tag ∈ tags, sameName e.name tag = true := by
  simp [hasTagIn, hasTag]

theorem hasTagIn_tags_iff {e : Element} {role : Role} :
    e.hasTagIn role.tags = true ↔ Role.ofTag? e.name = some role :=
  hasTagIn_iff.trans Role.ofTag?_eq_some_iff.symm

theorem hasTag_description_iff {e : Element} :
    e.hasTag descriptionTag = true ↔ Role.ofTag? e.name = some .description := by
  rw [← hasTagIn_tags_iff]
  simp [hasTagIn, Role.tags]

theorem hasTagIn_tags_congr {x y : Element} (same : Role.ofTag? x.name = Role.ofTag? y.name)
    (role : Role) : x.hasTagIn role.tags = y.hasTagIn role.tags := by
  rw [Bool.eq_iff_iff, hasTagIn_tags_iff, hasTagIn_tags_iff, same]

theorem hasTag_description_congr {x y : Element}
    (same : Role.ofTag? x.name = Role.ofTag? y.name) :
    x.hasTag descriptionTag = y.hasTag descriptionTag := by
  rw [Bool.eq_iff_iff, hasTag_description_iff, hasTag_description_iff, same]

end Xml.Element

end ShoreMetadata
