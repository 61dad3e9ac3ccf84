-- SUMMARY: CCNx 1.0 packets, read and written.
import NameRelay.Packet.Basic
import NameRelay.Wire.FixedHeader
import NameRelay.Wire.Scratch
import NameRelay.Wire.Tlv

/-!
# CCNx packets

A CCNx packet is a fixed header and one element whose type has to fit the packet type. Types and
lengths are 16-bit numbers. A fragment keeps its header word in the spare field of the fixed
header.
-/

namespace NameRelay.Ccnx

-- ---------------------------------------------------------------------------
-- Types
-- ---------------------------------------------------------------------------

def interestPacket : UInt8 := 0
def contentPacket : UInt8 := 1
def nackPacket : UInt8 := 2
def fragmentPacket : UInt8 := 3

def interestType : Nat := 1
def objectType : Nat := 2
def fragmentType : Nat := 5

def nameType : Nat := 0
def payloadType : Nat := 1
def endChunkType : Nat := 0x19

/-- The hop limit of an interest that asks for none. -/
def defaultInterestHopLimit : UInt8 := 64

/-- The hop limit of a content that asks for none. -/
def defaultContentHopLimit : UInt8 := 255

/-- Bytes that a fragment adds to its piece. -/
def fragmentOverhead : Nat := FixedHeader.size + 4

-- ---------------------------------------------------------------------------
-- Reading
-- ---------------------------------------------------------------------------

/-- The header length that a packet announces; none if the bytes do not begin as one. -/
def headerLength? (bytes : Bytes) : Option Nat :=
  match bytes with
  | v :: _ :: _ :: _ :: _ :: _ :: _ :: n :: _ =>
    if v = FixedHeader.version ∧ FixedHeader.size ≤ n.toNat ∧ n.toNat ≤ bytes.length then
      some n.toNat
    else
      none
  | _ => none

/-- Reads a name. Every element is a component, and components keep their heads. -/
def readName (value : Cursor) : Except DecodeError Name := do
  let name ← (Tlv.Head.fixed.elements value).foldM (Name.root .ccnx) fun name e =>
    match name.pushWire e.wire with
    | .ok name => .ok name
    | .error _ => .error .tooManyComponents
  return name.stripMarkers

/-- What the fields of a message have said so far. -/
structure Draft where
  name : Option Name := none
  content : Option Span := none
  endChunk : Option UInt32 := none
  deriving Repr

/-- Takes one field of a message. -/
def readField (draft : Draft) (e : Tlv.Element) : Except DecodeError Draft := do
  if e.type = nameType then
    return { draft with name := some (← readName e.value) }
  else if e.type = payloadType then
    return { draft with content := some e.value.span }
  else if e.type = endChunkType then
    return { draft with endChunk := ← e.word32? }
  else
    return draft

/-- The kind of message in a packet of one type that holds an element of another. -/
def messageKind? (packetType : UInt8) (elementType : Nat) : Option MessageKind :=
  if packetType = interestPacket ∧ elementType = interestType then some .interest
  else if packetType = nackPacket ∧ elementType = interestType then some .nack
  else if packetType = contentPacket ∧ elementType = objectType then some .content
  else none

/-- Reads the packet at the front of `bytes`; the number is how many bytes it takes. -/
def decode (bytes : Bytes) : Except DecodeError (Packet × Nat) := do
  let h ← FixedHeader.read .ccnxVersion .ccnxHeaderLength bytes
  let packet := bytes.take h.packetLength
  let (e, _) ← Tlv.Head.fixed.element (h.body packet)
  if h.packetType = fragmentPacket ∧ e.type = fragmentType then
    return (⟨packet, .fragment (.ofWord h.extra) e.value.span, .ccnx { hopLimit := h.hopLimit }⟩,
      h.packetLength)
  else match messageKind? h.packetType e.type with
    | none => throw (.unexpectedType e.type)
    | some kind =>
      let draft ← (Tlv.Head.fixed.elements e.value).foldM {} readField
      match draft.name with
      | none => throw .missingName
      | some name =>
        return (⟨packet, .message kind name draft.content, .ccnx ⟨h.hopLimit, draft.endChunk⟩⟩,
          h.packetLength)

-- ---------------------------------------------------------------------------
-- Writing
-- ---------------------------------------------------------------------------

/-- Writes an element with the fields that `inner` writes. -/
def writeElement (type : Nat) (inner : Write Unit) : Write Unit := do
  Write.head16 type (← Write.measured inner)

def writeName (name : Name) : Write Unit :=
  writeElement nameType (Write.components name Write.bytes)

/-- Writes a packet around the element that `inner` writes. -/
def writePacket (packetType hopLimit : UInt8) (extra : Nat) (inner : Write Unit) : Write Unit := do
  FixedHeader.write packetType hopLimit extra (← Write.measured inner)

def encodeInterest (name : Name) (o : InterestOptions) : Except EncodeError Bytes :=
  Write.packet name 0 <|
    writePacket interestPacket (o.hopLimit.getD defaultInterestHopLimit) 0 <|
      writeElement interestType (writeName name)

def encodeContent (name : Name) (payload : Bytes) (o : ContentOptions) :
    Except EncodeError Bytes :=
  Write.packet name payload.length <|
    writePacket contentPacket (o.hopLimit.getD defaultContentHopLimit) 0 <|
      writeElement objectType do
        writeElement payloadType (Write.bytes payload)
        Write.optional o.finalBlock fun n => writeElement endChunkType (Write.minimal n.toNat)
        writeName name

def encodeFragment (header : FragmentHeader) (piece : Bytes) : Except EncodeError Bytes :=
  Write.toBytes (piece.length + fragmentOverhead) <|
    writePacket fragmentPacket 0 header.word <|
      writeElement fragmentType (Write.bytes piece)

end NameRelay.Ccnx
