import ShoreMetadata.Xml.Position

/-! What can be wrong with an XML text. -/

namespace ShoreMetadata.Xml

inductive CharacterFault where
  | sign
  | noDigits
  | badDigit
  | tooLarge
  | notScalar (code : Nat)
  | zero
deriving DecidableEq

/-- References that cannot be resolved; ranges are byte offsets in the value. -/
inductive ReferenceFault where
  | unterminated (start stop : Nat)
  | unrecognized (start stop : Nat) (name : String)
  | character (fault : CharacterFault)
deriving DecidableEq

/-- Attributes that cannot be read; places are byte offsets in the tag. -/
inductive AttributeFault where
  | expectedEquals (place : Nat)
  | expectedValue (place : Nat)
  | unquoted (place : Nat)
  | unclosed (place : Nat) (quote : Char)
  | duplicated (place previous : Nat)
deriving DecidableEq

inductive MarkupFault where
  | unclosedTag
  | unclosedComment
  | unclosedCData
  | unclosedDoctype
  | unclosedInstruction
  | unknownMarkup
  | unnamedDoctype
deriving DecidableEq

inductive Fault where
  | markup (fault : MarkupFault)
  | mismatchedEnd (expected found : String)
  | unmatchedEnd (found : String)
  | attribute (fault : AttributeFault)
  | reference (fault : ReferenceFault)
  | openAtEnd (name : String)
  | secondRoot (name : String)
  | noRoot
deriving DecidableEq

structure Error where
  position : Position
  fault : Fault
deriving DecidableEq

def CharacterFault.message : CharacterFault → String
  | .sign => "unexpected number sign"
  | .noDigits => "cannot parse integer from empty string"
  | .badDigit => "invalid digit found in string"
  | .tooLarge => "number too large to fit in target type"
  | .notScalar code => s!"`{code}` is not a valid codepoint"
  | .zero => "0x0 character is not permitted in XML"

def ReferenceFault.message : ReferenceFault → String
  | .unterminated start stop =>
    s!"Error while escaping character at range {start}..{stop}: Cannot find ';' after '&'"
  | .unrecognized start stop name => s!"at {start}..{stop}: unrecognized entity `{name}`"
  | .character fault => "invalid character reference: " ++ fault.message

def AttributeFault.message : AttributeFault → String
  | .expectedEquals place =>
    s!"position {place}: attribute key must be directly followed by `=` or space"
  | .expectedValue place => s!"position {place}: `=` must be followed by an attribute value"
  | .unquoted place => s!"position {place}: attribute value must be enclosed in `\"` or `'`"
  | .unclosed place quote =>
    s!"position {place}: missing closing quote `{quote}` in attribute value"
  | .duplicated place previous =>
    s!"position {place}: duplicated attribute, previous declaration at position {previous}"

def MarkupFault.message : MarkupFault → String
  | .unclosedTag => "syntax error: tag not closed: `>` not found before end of input"
  | .unclosedComment => "syntax error: comment not closed: `-->` not found before end of input"
  | .unclosedCData => "syntax error: CDATA not closed: `]]>` not found before end of input"
  | .unclosedDoctype => "syntax error: DOCTYPE not closed: `>` not found before end of input"
  | .unclosedInstruction =>
    "syntax error: processing instruction or xml declaration not closed: "
      ++ "`?>` not found before end of input"
  | .unknownMarkup => "syntax error: unknown or missed symbol in markup"
  | .unnamedDoctype =>
    "ill-formed document: `<!DOCTYPE>` declaration does not contain a name of a document type"

def Fault.message : Fault → String
  | .markup fault => fault.message
  | .mismatchedEnd expected found =>
    s!"ill-formed document: expected `</{expected}>`, but `</{found}>` was found"
  | .unmatchedEnd found =>
    s!"ill-formed document: close tag `</{found}>` does not match any open tag"
  | .attribute fault => fault.message
  | .reference fault => fault.message
  | .openAtEnd name => s!"unexpected end of document inside <{name}>"
  | .secondRoot name => s!"second root element <{name}>"
  | .noRoot => "document has no root element"

end ShoreMetadata.Xml
