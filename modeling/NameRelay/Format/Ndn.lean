-- SUMMARY: NDN packets and link fragments, read and written.
import NameRelay.Packet.Basic
import NameRelay.Wire.Scratch
import NameRelay.Wire.Tlv

/-!
# NDN packets

An NDN packet is one element, with types and lengths of variable length throughout. Its fields
stand in any order, the last of a kind wins, and elements of unknown types are passed over. Link
fragments have an outer type of their own.
-/

namespace NameRelay.Ndn

-- ---------------------------------------------------------------------------
-- Types
-- ---------------------------------------------------------------------------

def interestType : Nat := 0x05
def dataType : Nat := 0x06
def nameType : Nat := 0x07
def componentType : Nat := 0x08
def selectorsType : Nat := 0x09
def nonceType : Nat := 0x0a
def scopeType : Nat := 0x0b
def lifetimeType : Nat := 0x0c
def minSuffixType : Nat := 0x0d
def maxSuffixType : Nat := 0x0e
def publisherKeyType : Nat := 0x0f
def excludeType : Nat := 0x10
def childSelectorType : Nat := 0x11
def mustBeFreshType : Nat := 0x12
def metaInfoType : Nat := 0x14
def payloadType : Nat := 0x15
def signatureInfoType : Nat := 0x16
def signatureValueType : Nat := 0x17
def contentKindType : Nat := 0x18
def freshnessType : Nat := 0x19
def finalBlockType : Nat := 0x1a
def signatureKindType : Nat := 0x1b
def linkType : Nat := 0x64
def linkFragmentType : Nat := 0x52
def beginEndType : Nat := 0x5c

/-- The signature type of content that is signed by its digest alone. -/
def digestSignature : Nat := 0

/-- Bytes that a fragment adds to its piece at most: two heads and a field of two bytes. -/
def fragmentOverhead : Nat := 12

/-- The first byte of a final block component. -/
def blockMark : UInt8 := 0

-- ---------------------------------------------------------------------------
-- Reading
-- ---------------------------------------------------------------------------

/-- Reads a name. Elements of other types are passed over. -/
def readName (value : Cursor) : Except DecodeError Name := do
  let name ← (Tlv.Head.flexible.elements value).foldM (Name.root .ndn) fun name e =>
    if e.type = componentType then
      match name.pushWire e.value.rest with
      | .ok name => .ok name
      | .error _ => .error .tooManyComponents
    else
      .ok name
  return name.stripMarkers

/-- Takes one selector. -/
def readSelector (d : NdnDetails) (e : Tlv.Element) : Except DecodeError NdnDetails := do
  if e.type = minSuffixType then
    return { d with minSuffix := ← e.word }
  else if e.type = maxSuffixType then
    return { d with maxSuffix := ← e.word }
  else if e.type = mustBeFreshType then
    return { d with mustBeFresh := true }
  else if e.type = publisherKeyType then
    return { d with publisherKey := some e.value.rest }
  else
    return d

/-- Takes the final block: the first element in the value, if it is a component with the mark. -/
def readFinalBlock (d : NdnDetails) (value : Cursor) : Except DecodeError NdnDetails := do
  let (e, _) ← Tlv.Head.flexible.element value
  match e.value.rest with
  | mark :: number =>
    if e.type = componentType ∧ mark = blockMark then
      match Bytes.word? number with
      | some n => return { d with finalBlock := word32? n.toNat }
      | none => throw (DecodeError.malformed .integerTooLong)
    else
      return d
  | [] => return d

/-- Takes one element of the meta information. -/
def readMetaInfo (d : NdnDetails) (e : Tlv.Element) : Except DecodeError NdnDetails := do
  if e.type = contentKindType then
    return { d with contentType := some (← e.word) }
  else if e.type = freshnessType then
    return { d with freshness := some (← e.word) }
  else if e.type = finalBlockType then
    readFinalBlock d e.value
  else
    return d

/-- What the fields of a message have said so far. -/
structure Draft where
  name : Option Name := none
  content : Option Span := none
  details : NdnDetails := {}
  deriving Repr

/-- Takes one field of a message. Signatures and unknown fields say nothing. -/
def readField (draft : Draft) (e : Tlv.Element) : Except DecodeError Draft := do
  let d := draft.details
  if e.type = nameType then
    return { draft with name := some (← readName e.value) }
  else if e.type = selectorsType then
    let selectors := Tlv.Head.flexible.elements e.value
    return { draft with details := ← selectors.foldM d readSelector }
  else if e.type = nonceType then
    return { draft with details := { d with nonce := some e.value.rest } }
  else if e.type = scopeType then
    return { draft with details := { d with scope := ← e.word } }
  else if e.type = lifetimeType then
    return { draft with details := { d with lifetime := some (← e.word) } }
  else if e.type = metaInfoType then
    let parts := Tlv.Head.flexible.elements e.value
    return { draft with details := ← parts.foldM d readMetaInfo }
  else if e.type = payloadType then
    return { draft with content := some e.value.span }
  else
    return draft

/-- What the fields of a fragment have said so far. -/
structure FragmentDraft where
  header : Option FragmentHeader := none
  piece : Option Span := none
  deriving Repr

/-- Takes one field of a fragment: the header word is two bytes long. -/
def readFragmentField (draft : FragmentDraft) (e : Tlv.Element) :
    Except DecodeError FragmentDraft :=
  if e.type = beginEndType ∧ e.length = 2 then
    .ok { draft with header := some (.ofWord (Bytes.value e.value.rest)) }
  else if e.type = linkFragmentType then
    .ok { draft with piece := some e.value.span }
  else
    .ok draft

/-- Reads the packet at the front of `bytes`; the number is how many bytes it takes. -/
def decode (bytes : Bytes) : Except DecodeError (Packet × Nat) := do
  let (e, next) ← Tlv.Head.flexible.element (.ofBytes bytes)
  let fields := Tlv.Head.flexible.elements e.value
  let packet := bytes.take next.pos
  if e.type = linkType then
    match ← fields.foldM {} readFragmentField with
    | ⟨some header, some piece⟩ => return (⟨packet, .fragment header piece, .ndn {}⟩, next.pos)
    | _ => throw (.malformed .incompleteLinkFragment)
  else if e.type = interestType ∨ e.type = dataType then
    let draft ← fields.foldM {} readField
    match draft.name with
    | none => throw .missingName
    | some name =>
      let kind : MessageKind := if e.type = interestType then .interest else .content
      return (⟨packet, .message kind name draft.content, .ndn draft.details⟩, next.pos)
  else
    throw (.unexpectedType e.type)

-- ---------------------------------------------------------------------------
-- Selectors without effect
-- ---------------------------------------------------------------------------

/-- Whether a selector is known but has no effect. -/
def isIneffective (type : Nat) : Bool := type == excludeType || type == childSelectorType

/-- The types of the selectors without effect in a field of selectors, up to its first fault. -/
def ineffectiveIn (field : Tlv.Element) : List Nat :=
  let selectors := (Tlv.Head.flexible.elements field.value).items
  let readable := selectors.takeWhile fun e => (readSelector {} e).isOk
  (readable.map (·.type)).filter isIneffective

/-- The types of the selectors without effect that are met when a packet is read, which ends at its
    first fault. Whether a field can be read does not hang on the fields before it. -/
def ineffectiveSelectors (bytes : Bytes) : List Nat :=
  match Tlv.Head.flexible.element (.ofBytes bytes) with
  | .error _ => []
  | .ok (e, _) =>
    if e.type = interestType ∨ e.type = dataType then
      let fields := (Tlv.Head.flexible.elements e.value).items
      let readable := fields.takeWhile fun f => (readField {} f).isOk
      let met := fields.take (readable.length + 1)
      (met.filter fun f => f.type == selectorsType).flatMap ineffectiveIn
    else
      []

-- ---------------------------------------------------------------------------
-- Writing
-- ---------------------------------------------------------------------------

/-- Writes an element with what `inner` writes as its value. -/
def writeElement (type : Nat) (inner : Write Unit) : Write Unit := do
  Tlv.writeHead type (← Write.measured inner)

def writeName (name : Name) : Write Unit :=
  writeElement nameType <|
    Write.components name fun wire => writeElement componentType (Write.bytes wire)

/-- Writes an element that holds a number. -/
def writeNumber (type n : Nat) : Write Unit := writeElement type (Write.nonNegative n)

/-- One step of the hash behind a nonce that is not given. -/
def mixNonce (hash : UInt32) (b : UInt8) : UInt32 := (hash * 33) ^^^ b.toUInt32

/-- A nonce made of the name and the selectors, for interests that are given none. -/
def derivedNonce (name : Name) (o : InterestOptions) : Bytes :=
  let components := name.wireComponents.flatMap fun wire => bigEndian 4 wire.length ++ wire
  let lifetime := bigEndian 8 (o.lifetime.getD 0).toNat
  let selectors : Bytes :=
    [if o.mustBeFresh then 1 else 0, o.scope.getD 255, (o.minSuffix.getD 0).toUInt8,
      (o.maxSuffix.getD (UInt64.ofNat word64Max)).toUInt8]
  let hash := (components ++ lifetime ++ selectors).foldl mixNonce 5381
  bigEndian 4 hash.toNat

/-- Writes the selectors of an interest. -/
def writeSelectors (o : InterestOptions) : Write Unit := do
  if o.mustBeFresh then Tlv.writeHead mustBeFreshType 0
  Write.optional o.maxSuffix fun n => writeNumber maxSuffixType n.toNat
  Write.optional o.minSuffix fun n => writeNumber minSuffixType n.toNat

/-- Writes an interest. A scope above 2 is the default and stays unsaid, as do selectors of which
    there are none. -/
def encodeInterest (name : Name) (o : InterestOptions) : Except EncodeError Bytes :=
  Write.packet name 0 <| writeElement interestType do
    Write.optional (o.scope.filter (· ≤ 2)) fun n => writeNumber scopeType n.toNat
    Write.optional o.lifetime fun n => writeNumber lifetimeType n.toNat
    writeElement nonceType (Write.bytes (o.nonce.getD (derivedNonce name o)))
    let length ← Write.measured (writeSelectors o)
    if length > 0 then Tlv.writeHead selectorsType length
    writeName name

/-- The room for a final block component. -/
def finalBlockRoom : Nat := 8

/-- The component that names the last block. -/
def finalBlockComponent (block : UInt32) : Except EncodeError Bytes :=
  Write.toBytes finalBlockRoom do
    Write.nonNegative block.toNat
    Write.byte blockMark

/-- Writes the meta information of a content. -/
def writeMetaInfo (o : ContentOptions) : Write Unit := do
  Write.optional o.finalBlock fun block => do
    match finalBlockComponent block with
    | .error e => throw e
    | .ok component =>
      writeElement finalBlockType (writeElement componentType (Write.bytes component))
  Write.optional o.freshness fun n => writeNumber freshnessType n.toNat

def encodeContent (name : Name) (payload : Bytes) (o : ContentOptions) :
    Except EncodeError Bytes :=
  Write.packet name payload.length <| writeElement dataType do
    Tlv.writeHead signatureValueType 0
    writeElement signatureInfoType (writeNumber signatureKindType digestSignature)
    writeElement payloadType (Write.bytes payload)
    writeElement metaInfoType (writeMetaInfo o)
    writeName name

def encodeFragment (header : FragmentHeader) (piece : Bytes) : Except EncodeError Bytes :=
  Write.toBytes (piece.length + fragmentOverhead) <| writeElement linkType do
    writeElement linkFragmentType (Write.bytes piece)
    writeElement beginEndType (Write.word16 header.word)

end NameRelay.Ndn
