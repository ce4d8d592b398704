import ShoreMetadata.Schema.Field

/-! Optional values for a list of fields. -/

namespace ShoreMetadata

inductive Values : List Field → Type
  | nil : Values []
  | cons {f : Field} {fs : List Field} (value : Option f.Value) (rest : Values fs) :
    Values (f :: fs)

namespace Values

def absent : (fs : List Field) → Values fs
  | [] => .nil
  | _ :: fs => .cons none (absent fs)

/-- The value of a field, `none` also if it is not among the fields. -/
def get? : {fs : List Field} → Values fs → (f : Field) → Option f.Value
  | _, .nil, _ => none
  | g :: _, .cons value rest, f => if h : g = f then h ▸ value else rest.get? f

def set : {fs : List Field} → Values fs → (f : Field) → Option f.Value → Values fs
  | _, .nil, _, _ => .nil
  | g :: _, .cons value rest, f, new =>
    if h : g = f then .cons (h ▸ new) rest else .cons value (rest.set f new)

def sameOption (t : FieldType) : Option t.Value → Option t.Value → Bool
  | none, none => true
  | some a, some b => t.same a b
  | _, _ => false

def same : {fs : List Field} → Values fs → Values fs → Bool
  | _, .nil, .nil => true
  | f :: _, .cons a as, .cons b bs => sameOption f.type a b && as.same bs

def mapPresent (g : (f : Field) → f.Value → α) : {fs : List Field} → Values fs → List α
  | _, .nil => []
  | f :: _, .cons (some value) rest => g f value :: rest.mapPresent g
  | _ :: _, .cons none rest => rest.mapPresent g

def build? [Monad m] (g : (f : Field) → m (Option f.Value)) : (fs : List Field) → m (Values fs)
  | [] => pure .nil
  | f :: fs => do
    let value ← g f
    let rest ← build? g fs
    return .cons value rest

end Values

end ShoreMetadata
