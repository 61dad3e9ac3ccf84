-- SUMMARY: Cisco TLV packets, read and written.
import NameRelay.Packet.Basic
import NameRelay.Wire.FixedHeader
import NameRelay.Wire.Scratch
import NameRelay.Wire.Switch
import NameRelay.Wire.Tlv

/-!
# Cisco packets

A Cisco packet is a fixed header and one element, with 16-bit types and lengths. Nothing at its
front tells it from other suites, so it travels behind an encoding switch, which a packet keeps in
front of its bytes. The suite has no fragments.
-/

namespace NameRelay.Cisco

-- ---------------------------------------------------------------------------
-- Types
-- ---------------------------------------------------------------------------

def interestPacket : UInt8 := 1
def contentPacket : UInt8 := 2
def nackPacket : UInt8 := 3

def interestType : Nat := 1
def contentType : Nat := 2

def nameType : Nat := 1
def contentDataType : Nat := 4
def finalSegmentType : Nat := 15

/-- The hop limit of a packet that asks for none. -/
def defaultHopLimit : UInt8 := 64

-- ---------------------------------------------------------------------------
-- Reading
-- ---------------------------------------------------------------------------

/-- Whether an element of a name is a component, regular or with a chunk number. -/
def isComponent (type : Nat) : Bool :=
  type == Component.segmentType || type == Component.ciscoChunkType

/-- Reads a name. Components keep their heads; elements of other types are passed over. -/
def readName (value : Cursor) : Except DecodeError Name := do
  let name ← (Tlv.Head.fixed.elements value).foldM (Name.root .cisco) fun name e =>
    if isComponent e.type then
      match name.pushWire e.wire with
      | .ok name => .ok name
      | .error _ => .error .tooManyComponents
    else
      .ok name
  return name.stripMarkers

/-- What the fields of a message have said so far. -/
structure Draft where
  name : Option Name := none
  content : Option Span := none
  finalSegment : Option UInt32 := none
  deriving Repr

/-- Takes one field of a message. -/
def readField (draft : Draft) (e : Tlv.Element) : Except DecodeError Draft := do
  if e.type = nameType then
    return { draft with name := some (← readName e.value) }
  else if e.type = finalSegmentType then
    return { draft with finalSegment := ← e.word32? }
  else if e.type = contentDataType then
    return { draft with content := some e.value.span }
  else
    return draft

def messageKind? (packetType : UInt8) : Option MessageKind :=
  if packetType = interestPacket then some .interest
  else if packetType = contentPacket then some .content
  else if packetType = nackPacket then some .nack
  else none

/-- The value of the one element of a packet. Its type is checked before its length is read. -/
def readMessage (c : Cursor) : Except DecodeError Cursor := do
  let (type, c) ← c.word16
  if type ≠ interestType ∧ type ≠ contentType then throw (.unexpectedType type)
  let (length, c) ← c.word16
  let (value, _) ← c.split length
  return value

/-- Reads the packet at the front of `bytes`; the number is how many bytes it takes. -/
def decode (bytes : Bytes) : Except DecodeError (Packet × Nat) := do
  let h ← FixedHeader.read .ciscoVersion .ciscoHeaderLength bytes
  let packet := bytes.take h.packetLength
  match messageKind? h.packetType with
  | none => throw (.unexpectedType h.packetType.toNat)
  | some kind =>
    let value ← readMessage (h.body packet)
    let draft ← (Tlv.Head.fixed.elements value).foldM {} readField
    match draft.name with
    | none => throw .missingName
    | some name =>
      let switch := Switch.header .cisco
      let content := draft.content.map (·.shift switch.length)
      return (⟨switch ++ packet, .message kind name content,
        .cisco ⟨h.hopLimit, draft.finalSegment⟩⟩, h.packetLength)

-- ---------------------------------------------------------------------------
-- Writing
-- ---------------------------------------------------------------------------

/-- Writes an element with the fields that `inner` writes. -/
def writeElement (type : Nat) (inner : Write Unit) : Write Unit := do
  Write.head16 type (← Write.measured inner)

def writeName (name : Name) : Write Unit :=
  writeElement nameType (Write.components name Write.bytes)

/-- Writes a switch and a packet around the element that `inner` writes. -/
def writePacket (packetType hopLimit : UInt8) (inner : Write Unit) : Write Unit := do
  FixedHeader.write packetType hopLimit 0 (← Write.measured inner)
  Switch.write .cisco

def encodeInterest (name : Name) (o : InterestOptions) : Except EncodeError Bytes :=
  Write.packet name 0 <|
    writePacket interestPacket (o.hopLimit.getD defaultHopLimit) <|
      writeElement interestType (writeName name)

def encodeContent (name : Name) (payload : Bytes) (o : ContentOptions) :
    Except EncodeError Bytes :=
  Write.packet name payload.length <|
    writePacket contentPacket (o.hopLimit.getD defaultHopLimit) <|
      writeElement contentType do
        writeElement contentDataType (Write.bytes payload)
        Write.optional o.finalBlock fun n => writeElement finalSegmentType (Write.word32 n.toNat)
        writeName name

end NameRelay.Cisco
