/-! Names compare without regard to the case of ASCII letters. -/

namespace ShoreMetadata.Text

def lower (s : String) : String :=
  String.ofList (s.toList.map Char.toLower)

def sameName (a b : String) : Bool :=
  lower a == lower b

theorem sameName_iff {a b : String} : sameName a b = true ↔ lower a = lower b :=
  beq_iff_eq

theorem sameName_congr {a b : String} (same : sameName a b = true) : sameName a = sameName b := by
  funext other
  rw [sameName, sameName, sameName_iff.mp same]

end ShoreMetadata.Text
