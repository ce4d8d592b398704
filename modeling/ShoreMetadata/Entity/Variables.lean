import ShoreMetadata.Entity.Basic

/-! The order of record variables: those with a column first, by column, then
the others; in either part the order of the list is kept. -/

namespace ShoreMetadata

def hasColumn (column : α → Option Int64) (a : α) : Bool :=
  match column a with
  | some n => decide (0 ≤ n)
  | none => false

def columnLE (column : α → Option Int64) (a b : α) : Bool :=
  match column a, column b with
  | some m, some n => decide (m ≤ n)
  | _, _ => true

def orderByColumn (column : α → Option Int64) (items : List α) : List α :=
  (items.filter (hasColumn column)).mergeSort (columnLE column)
    ++ items.filter (!hasColumn column ·)

namespace Entity

def column? (v : Entity .recordVariable) : Option Int64 :=
  v.get? .columnIndex

def orderedVariables (record : Entity .recordDescription) : List (Entity .recordVariable) :=
  orderByColumn column? (record.members .recordVariables)

end Entity

end ShoreMetadata
