-- SUMMARY: IOT TLV packets, read and written.
import NameRelay.Packet.Basic
import NameRelay.Wire.Scratch
import NameRelay.Wire.Switch
import NameRelay.Wire.Tlv

/-!
# IOT packets

An IOT packet is one element, with compact heads throughout. It travels behind an encoding switch,
which a packet keeps in front of its bytes. Requests and replies hold optional headers, a name and
a payload in any order; the optional headers hold the time to live.
-/

namespace NameRelay.Iot

-- ---------------------------------------------------------------------------
-- Types
-- ---------------------------------------------------------------------------

def fragmentType : Nat := 1
def requestType : Nat := 2
def replyType : Nat := 3

def fragmentWordType : Nat := 1
def fragmentDataType : Nat := 2

def optionalHeaderType : Nat := 0
def nameType : Nat := 1
def payloadType : Nat := 2

def hopLimitType : Nat := 0
def pathNameType : Nat := 0
def componentType : Nat := 1
def dataType : Nat := 1

/-- The time to live of an interest that asks for none. -/
def defaultTtl : UInt8 := 5

/-- Bytes that a fragment adds to its piece at most: two long heads, a short one with the word,
    and the switch. -/
def fragmentOverhead : Nat := 15

/-- The bytes in front of a packet that it keeps. -/
def switch : Bytes := Switch.header .iot

-- ---------------------------------------------------------------------------
-- Reading
-- ---------------------------------------------------------------------------

/-- Reads the components of a path name. Elements of other types are passed over. -/
def readPathName (value : Cursor) : Except DecodeError Name := do
  let name ← (Tlv.Head.compact.elements value).foldM (Name.root .iot) fun name e =>
    if e.type = componentType then
      match name.pushWire e.value.rest with
      | .ok name => .ok name
      | .error _ => .error .tooManyComponents
    else
      .ok name
  return name.stripMarkers

/-- What the fields of a request or reply have said so far. -/
structure Draft where
  name : Option Name := none
  content : Option Span := none
  details : IotDetails := {}
  deriving Repr

/-- Takes one optional header: a hop limit is a single byte. -/
def readOptionalHeader (d : IotDetails) (e : Tlv.Element) : Except DecodeError IotDetails :=
  match e.value.rest with
  | [ttl] =>
    if e.type = hopLimitType then .ok ⟨some ttl, e.value.pos + switch.length⟩ else .ok d
  | _ => .ok d

/-- Takes one element of a name field. -/
def readNamePart (name : Option Name) (e : Tlv.Element) : Except DecodeError (Option Name) := do
  if e.type = pathNameType then return some (← readPathName e.value) else return name

/-- Takes the payload field: its first element, if that is data. -/
def readPayload (content : Option Span) (value : Cursor) : Except DecodeError (Option Span) := do
  if value.isEmpty then
    return content
  else
    let (e, _) ← Tlv.Head.compact.element value
    return if e.type = dataType then some (e.value.span.shift switch.length) else content

/-- Takes one field of a request or reply. -/
def readField (draft : Draft) (e : Tlv.Element) : Except DecodeError Draft := do
  if e.type = optionalHeaderType then
    let parts := Tlv.Head.compact.elements e.value
    return { draft with details := ← parts.foldM draft.details readOptionalHeader }
  else if e.type = nameType then
    let parts := Tlv.Head.compact.elements e.value
    return { draft with name := ← parts.foldM draft.name readNamePart }
  else if e.type = payloadType then
    return { draft with content := ← readPayload draft.content e.value }
  else
    return draft

/-- What the fields of a fragment have said so far. -/
structure FragmentDraft where
  word : Option Nat := none
  piece : Option Span := none
  deriving Repr

/-- Takes one field of a fragment: the word is two bytes long. -/
def readFragmentField (draft : FragmentDraft) (e : Tlv.Element) :
    Except DecodeError FragmentDraft :=
  if e.type = fragmentWordType ∧ e.length = 2 then
    .ok { draft with word := some (Bytes.value e.value.rest) }
  else if e.type = fragmentDataType then
    .ok { draft with piece := some (e.value.span.shift switch.length) }
  else
    .ok draft

/-- Reads the packet at the front of `bytes`; the number is how many bytes it takes. -/
def decode (bytes : Bytes) : Except DecodeError (Packet × Nat) := do
  let (e, next) ← Tlv.Head.compact.element (.ofBytes bytes)
  let fields := Tlv.Head.compact.elements e.value
  let packet := switch ++ bytes.take next.pos
  if e.type = fragmentType then
    match ← fields.foldM {} readFragmentField with
    | ⟨some word, some piece⟩ =>
      return (⟨packet, .fragment (.ofWord word) piece, .iot {}⟩, next.pos)
    | _ => throw (.malformed .incompleteIotFragment)
  else if e.type = requestType ∨ e.type = replyType then
    let draft ← fields.foldM {} readField
    match draft.name with
    | none => throw .missingName
    | some name =>
      let kind : MessageKind := if e.type = requestType then .interest else .content
      return (⟨packet, .message kind name draft.content, .iot draft.details⟩, next.pos)
  else
    throw (.unexpectedType e.type)

-- ---------------------------------------------------------------------------
-- Writing
-- ---------------------------------------------------------------------------

/-- Writes an element with the fields that `inner` writes. -/
def writeElement (type : Nat) (inner : Write Unit) : Write Unit := do
  Tlv.writeCompactHead type (← Write.measured inner)

def writeName (name : Name) : Write Unit :=
  writeElement nameType <| writeElement pathNameType <|
    Write.components name fun wire => writeElement componentType (Write.bytes wire)

/-- Writes a switch and a packet with the fields that `inner` writes. -/
def writePacket (type : Nat) (inner : Write Unit) : Write Unit := do
  writeElement type inner
  Switch.write .iot

def encodeInterest (name : Name) (o : InterestOptions) : Except EncodeError Bytes :=
  Write.packet name 0 <| writePacket requestType do
    writeName name
    writeElement optionalHeaderType <|
      writeElement hopLimitType (Write.byte (o.hopLimit.getD defaultTtl))

/-- Contents of the suite carry no options. -/
def encodeContent (name : Name) (payload : Bytes) (_ : ContentOptions) :
    Except EncodeError Bytes :=
  Write.packet name payload.length <| writePacket replyType do
    writeElement payloadType (writeElement dataType (Write.bytes payload))
    writeName name

def encodeFragment (header : FragmentHeader) (piece : Bytes) : Except EncodeError Bytes :=
  Write.toBytes (piece.length + fragmentOverhead) <| writePacket fragmentType do
    writeElement fragmentDataType (Write.bytes piece)
    writeElement fragmentWordType (Write.word16 header.word)

end NameRelay.Iot
