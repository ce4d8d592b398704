/-! Sizes and codes of text in UTF-8. Positions in documents count bytes. -/

namespace ShoreMetadata.Text

def byteLength : List Char → Nat
  | [] => 0
  | c :: cs => c.utf8Size + byteLength cs

@[simp] theorem byteLength_append (a b : List Char) :
    byteLength (a ++ b) = byteLength a + byteLength b := by
  induction a with
  | nil => simp [byteLength]
  | cons c cs ih => simp [byteLength, ih, Nat.add_assoc]

def utf8Bytes (cs : List Char) : List UInt8 :=
  cs.flatMap String.utf8EncodeChar

end ShoreMetadata.Text
