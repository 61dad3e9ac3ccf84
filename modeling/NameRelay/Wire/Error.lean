-- SUMMARY: Why bytes cannot be read as a packet, and why a packet cannot be written.
import NameRelay.Bytes
import NameRelay.Suite

/-!
# Reading and writing errors

Each error is a cause. Its wording is in one function per type, `DecodeError.message` and
`EncodeError.message`.
-/

namespace NameRelay

/-- What is wrong with a packet whose bytes are all there. -/
inductive Malformation where
  | emptyElement
  | headerTooLong
  | nestingTooDeep
  | unsupportedToken
  | selectorNotDecimal
  | selectorOutOfRange
  | ccnxVersion
  | ccnxHeaderLength
  | ciscoVersion
  | ciscoHeaderLength
  | incompleteIotFragment
  | incompleteLinkFragment
  | integerTooLong
  deriving DecidableEq, Repr

def Malformation.message : Malformation → String
  | emptyElement => "empty CCNB element"
  | headerTooLong => "CCNB header too long"
  | nestingTooDeep => "CCNB nesting too deep"
  | unsupportedToken => "unsupported CCNB token type"
  | selectorNotDecimal => "CCNB selector is not a decimal number"
  | selectorOutOfRange => "CCNB selector out of range"
  | ccnxVersion => "unsupported CCNx version"
  | ccnxHeaderLength => "bad CCNx header length"
  | ciscoVersion => "unsupported Cisco TLV version"
  | ciscoHeaderLength => "bad Cisco TLV header length"
  | incompleteIotFragment => "incomplete IOT fragment"
  | incompleteLinkFragment => "incomplete NDNLP fragment"
  | integerTooLong => "integer too long"

/-- Why bytes are not a packet. -/
inductive DecodeError where
  /-- The bytes end inside a header. -/
  | tooShort
  /-- A length reaches past the bytes that enclose it. -/
  | lengthOverrun (declared available : Nat)
  | unknownSuite
  | unexpectedType (type : Nat)
  | tooManyComponents
  | missingName
  | malformed (cause : Malformation)
  deriving DecidableEq, Repr

def DecodeError.message : DecodeError → String
  | tooShort => "buffer too short"
  | lengthOverrun declared available =>
      s!"declared length {declared} exceeds the {available} available bytes"
  | unknownSuite => "could not identify the packet suite"
  | unexpectedType type => s!"unexpected type {hexNumber type}"
  | tooManyComponents => "name has too many components"
  | missingName => "packet carries no name"
  | malformed cause => s!"malformed packet: {cause.message}"

/-- The word for the cause, without its particulars. -/
def DecodeError.kind : DecodeError → String
  | tooShort => "TooShort"
  | lengthOverrun _ _ => "LengthOverrun"
  | unknownSuite => "UnknownSuite"
  | unexpectedType _ => "UnexpectedType"
  | tooManyComponents => "TooManyComponents"
  | missingName => "MissingName"
  | malformed _ => "Malformed"

/-- Why a packet cannot be written. -/
inductive EncodeError where
  /-- No room is left in front of what was written. -/
  | bufferTooShort
  /-- A length does not fit the field that has to hold it. -/
  | valueTooLong
  | unsupported (suite : Suite)
  deriving DecidableEq, Repr

def EncodeError.message : EncodeError → String
  | bufferTooShort => "buffer too short"
  | valueTooLong => "value does not fit its length field"
  | unsupported suite => s!"{suite.name} cannot encode this"

/-- The word for the cause, without its particulars. -/
def EncodeError.kind : EncodeError → String
  | bufferTooShort => "BufferTooShort"
  | valueTooLong => "ValueTooLong"
  | unsupported _ => "Unsupported"

end NameRelay
