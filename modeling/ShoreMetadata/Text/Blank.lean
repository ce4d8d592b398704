/-! White space. Values are trimmed of every character with the Unicode
property, markup only knows the four blanks of XML. -/

namespace ShoreMetadata.Text

def blankRanges : List (Nat × Nat) :=
  [(0x9, 0xD), (0x20, 0x20), (0x85, 0x85), (0xA0, 0xA0), (0x1680, 0x1680), (0x2000, 0x200A),
    (0x2028, 0x2029), (0x202F, 0x202F), (0x205F, 0x205F), (0x3000, 0x3000)]

def inRanges (ranges : List (Nat × Nat)) (c : Char) : Bool :=
  ranges.any fun range => range.1 ≤ c.toNat && c.toNat ≤ range.2

/-- The Unicode property `White_Space`. -/
def isBlank (c : Char) : Bool :=
  inRanges blankRanges c

/-- Space, tab, carriage return and line feed. -/
def isXmlBlank (c : Char) : Bool :=
  c == ' ' || c == '\t' || c == '\r' || c == '\n'

theorem isBlank_of_isXmlBlank {c : Char} (h : isXmlBlank c = true) : isBlank c = true := by
  simp only [isXmlBlank, Bool.or_eq_true, beq_iff_eq] at h
  rcases h with ((rfl | rfl) | rfl) | rfl <;> decide

def dropTrailing (p : Char → Bool) (cs : List Char) : List Char :=
  (cs.reverse.dropWhile p).reverse

def trimBy (p : Char → Bool) (cs : List Char) : List Char :=
  dropTrailing p (cs.dropWhile p)

def trim (s : String) : String :=
  String.ofList (trimBy isBlank s.toList)

def isBlankText (s : String) : Bool :=
  s.toList.all isBlank

end ShoreMetadata.Text
