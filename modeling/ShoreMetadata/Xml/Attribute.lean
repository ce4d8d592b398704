import ShoreMetadata.Text.Blank
import ShoreMetadata.Xml.Reference

/-! The inside of a start tag: a name, then attributes in quotes. -/

namespace ShoreMetadata.Xml

open Text

def tagName (content : List Char) : List Char :=
  content.takeWhile (!isXmlBlank ·)

def localName (name : List Char) : List Char :=
  match name.dropWhile (· ≠ ':') with
  | [] => name
  | _ :: cs => cs

/-- One attribute as written, with the offset of its key, and what follows. -/
structure RawAttribute where
  key : List Char
  place : Nat
  value : List Char
  rest : List Char
  restPlace : Nat

def endsKey (c : Char) : Bool :=
  c == '=' || isXmlBlank c

def readValue (key : List Char) (keyPlace place : Nat) (cs : List Char) :
    Except AttributeFault RawAttribute :=
  let opened := place + byteLength (cs.takeWhile isXmlBlank)
  match cs.dropWhile isXmlBlank with
  | [] => .error (.expectedValue opened)
  | quote :: inside =>
    if quote = '"' ∨ quote = '\'' then
      let value := inside.takeWhile (· ≠ quote)
      let closed := opened + 1 + byteLength value
      match inside.dropWhile (· ≠ quote) with
      | [] => .error (.unclosed closed quote)
      | _ :: rest => .ok ⟨key, keyPlace, value, rest, closed + 1⟩
    else .error (.unquoted opened)

/-- Reads one attribute whose key starts with the first character. Of two faults
the earlier in the order key, repetition, value counts. -/
def readAttribute (seen : List (List Char × Nat)) (place : Nat) (first : Char) (cs : List Char) :
    Except AttributeFault RawAttribute :=
  let key := first :: cs.takeWhile (!endsKey ·)
  let after := cs.dropWhile (!endsKey ·)
  let equals := place + byteLength key + byteLength (after.takeWhile isXmlBlank)
  match after.dropWhile isXmlBlank with
  | '=' :: value =>
    match seen.find? (·.1 = key) with
    | some earlier => .error (.duplicated place earlier.2)
    | none => readValue key place (equals + 1) value
  | _ => .error (.expectedEquals equals)

theorem readValue_shorter {key : List Char} {keyPlace place : Nat} {cs : List Char}
    {raw : RawAttribute} (h : readValue key keyPlace place cs = .ok raw) :
    raw.rest.length < cs.length := by
  unfold readValue at h
  have blanks := length_dropWhile_le isXmlBlank cs
  split at h
  · simp at h
  · rename_i quote inside opened
    rw [opened] at blanks
    have value := length_dropWhile_le (· ≠ quote) inside
    split at h
    · split at h
      · simp at h
      · rename_i closed
        rw [closed] at value
        cases h
        simp only [List.length_cons] at value blanks ⊢
        omega
    · simp at h

theorem readAttribute_shorter {seen : List (List Char × Nat)} {place : Nat} {first : Char}
    {cs : List Char} {raw : RawAttribute} (h : readAttribute seen place first cs = .ok raw) :
    raw.rest.length < cs.length := by
  simp only [readAttribute] at h
  have key := length_dropWhile_le (!endsKey ·) cs
  have blanks := length_dropWhile_le isXmlBlank (cs.dropWhile (!endsKey ·))
  split at h
  · rename_i equals
    split at h
    · simp at h
    · have value := readValue_shorter h
      rw [equals] at blanks
      simp only [List.length_cons] at blanks
      omega
  · simp at h

def readAttributes (seen : List (List Char × Nat)) (place : Nat) (cs : List Char) :
    Except Fault (List (String × String)) :=
  match _split : cs.dropWhile isXmlBlank with
  | [] => .ok []
  | first :: rest =>
    match _read : readAttribute seen (place + byteLength (cs.takeWhile isXmlBlank)) first rest with
    | .error fault => .error (.attribute fault)
    | .ok raw => do
      let value ← (unescape raw.value).mapError .reference
      let more ← readAttributes ((raw.key, raw.place) :: seen) raw.restPlace raw.rest
      return (String.ofList raw.key, String.ofList value) :: more
termination_by cs.length
decreasing_by
  have shorter := readAttribute_shorter _read
  have blanks := length_dropWhile_le isXmlBlank cs
  rw [_split] at blanks
  simp only [List.length_cons] at blanks
  omega

def tagAttributes (content : List Char) : Except Fault (List (String × String)) :=
  let name := tagName content
  readAttributes [] (byteLength name) (content.drop name.length)

end ShoreMetadata.Xml
