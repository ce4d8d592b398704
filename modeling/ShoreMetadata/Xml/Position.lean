/-! Places in a text. Lines count line feeds, columns count bytes, and both
start at one. -/

namespace ShoreMetadata.Xml

structure Position where
  line : Nat
  column : Nat
deriving DecidableEq, Inhabited

namespace Position

def none : Position := ⟨0, 0⟩

end Position

end ShoreMetadata.Xml
