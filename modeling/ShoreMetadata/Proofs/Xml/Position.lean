import ShoreMetadata.Xml.LineIndex

/-! Lines and columns tell offsets: the offset that a place was told for is found again. -/

namespace ShoreMetadata.Xml

/-- The offset at which a line of a text begins; lines are counted from zero. -/
def lineStart : Nat → List Char → Nat
  | 0, _ => 0
  | _ + 1, [] => 0
  | line + 1, c :: cs => c.utf8Size + lineStart (if c = '\n' then line else line + 1) cs

def Position.offset (cs : List Char) (p : Position) : Nat :=
  lineStart (p.line - 1) cs + (p.column - 1)

private theorem eq_add_lineStart {offset line start : Nat} {cs : List Char}
    (begins : (offset :: lineStartsFrom offset cs)[line]? = some start) :
    start = offset + lineStart line cs := by
  induction cs generalizing offset line with
  | nil =>
      cases line with
      | zero =>
          cases begins
          rfl
      | succ line => cases begins
  | cons c cs ih =>
      cases line with
      | zero =>
          cases begins
          rfl
      | succ line =>
          rw [List.getElem?_cons_succ] at begins
          -- A line feed takes one of the lines that are left, any other character none.
          have tail : ((offset + c.utf8Size) :: lineStartsFrom (offset + c.utf8Size) cs)[
              if c = '\n' then line else line + 1]? = some start := by
            simp only [lineStartsFrom] at begins
            split at begins
            next feed => rw [if_pos feed, begins]
            next other => rw [if_neg other, List.getElem?_cons_succ, begins]
          rw [ih tail, lineStart, Nat.add_assoc]

namespace LineIndex

theorem exists_locate (index : LineIndex) (offset : Nat) :
    ∃ line start, index.InLine offset line start ∧
      index.locate offset = ⟨line + 1, offset - start + 1⟩ := by
  obtain ⟨line, start, inLine, told⟩ := index.exists_locate? offset
  exact ⟨line, start, inLine, by simp [locate, told]⟩

end LineIndex

theorem offset_locate (cs : List Char) (offset : Nat) :
    ((LineIndex.ofText cs).locate offset).offset cs = offset := by
  obtain ⟨line, start, inLine, told⟩ := (LineIndex.ofText cs).exists_locate offset
  have there : (0 :: lineStartsFrom 0 cs)[line]? = some start := by
    simpa [LineIndex.ofText, lineStarts] using inLine.begins
  have begins : start = 0 + lineStart line cs := eq_add_lineStart there
  have reached := inLine.reached
  simp only [told, Position.offset, Nat.add_sub_cancel]
  omega

end ShoreMetadata.Xml
