-- SUMMARY: Putting the fragments of one packet at a time together.
import NameRelay.Log
import NameRelay.Packet.Basic
import NameRelay.Wire.FrontBuffer

/-!
# Reassemblers

A reassembler collects the fragments of one packet. They have to come in sequence and from one
suite; anything else throws away what was collected. The packet is handed over with its last
fragment.
-/

namespace NameRelay

/-- A packet of which some fragments have come. -/
structure PartialPacket where
  suite : Suite
  /-- The number that the next fragment has to have. -/
  expected : UInt16
  bytes : Bytes
  deriving DecidableEq, Repr

/-- The incoming side of a link: idle, or in the middle of a packet. -/
structure Reassembler where
  current : Option PartialPacket
  deriving DecidableEq, Repr

/-- What a reassembler has to say about a fragment. -/
inductive ReassemblyNote where
  /-- A packet was begun before the one before it had ended. -/
  | incomplete
  /-- A fragment came that continues nothing. -/
  | outOfSequence (seqno : UInt16) (expected : Option UInt16)
  /-- The packet became longer than packets may be. -/
  | tooLong
  deriving DecidableEq, Repr

/-- An optional number as records of events show it. -/
def showExpected : Option UInt16 → String
  | none => "None"
  | some n => "Some(" ++ toString n.toNat ++ ")"

def ReassemblyNote.message : ReassemblyNote → String
  | incomplete => "Dropping incomplete packet, new one started"
  | outOfSequence seqno expected =>
      s!"Fragment {seqno.toNat} out of sequence, expected {showExpected expected}"
  | tooLong => s!"Reassembled packet exceeds {maxPacketSize} bytes, dropping"

def ReassemblyNote.record (note : ReassemblyNote) : LogRecord := ⟨.debug, note.message⟩

namespace Reassembler

/-- The reassembler that has collected nothing. -/
def idle : Reassembler := ⟨none⟩

def isIdle (r : Reassembler) : Bool := r.current.isNone

/-- The number behind a fragment's. -/
def following (seqno : UInt16) : UInt16 :=
  UInt16.ofNat ((seqno.toNat + 1) % FragmentHeader.seqnoModulus)

/-- What a fragment changes: the packet it completes, if it does, and anything to be said. -/
structure Step where
  next : Reassembler
  whole : Option Bytes := none
  note : Option ReassemblyNote := none
  deriving Repr

/-- Continues the current packet, if the fragment is the one that comes next. -/
def extend (r : Reassembler) (suite : Suite) (header : FragmentHeader) (piece : Bytes) : Step :=
  match r.current with
  | none => { next := idle, note := some (.outOfSequence header.seqno none) }
  | some p =>
    if p.expected ≠ header.seqno ∨ p.suite ≠ suite then
      { next := idle, note := some (.outOfSequence header.seqno (some p.expected)) }
    else if p.bytes.length + piece.length > maxPacketSize then
      { next := idle, note := some .tooLong }
    else if header.position.closes then
      { next := idle, whole := some (p.bytes ++ piece) }
    else
      { next := ⟨some ⟨suite, following header.seqno, p.bytes ++ piece⟩⟩ }

/-- Takes a packet in. One that is not a fragment changes nothing. -/
def accept (r : Reassembler) (packet : Packet) : Step :=
  match packet.body with
  | .message _ _ _ => { next := r }
  | .fragment header span =>
    let piece := span.of packet.bytes
    match header.position with
    | .single => { next := idle, whole := some piece }
    | .first =>
      { next := ⟨some ⟨packet.suite, following header.seqno, piece⟩⟩
        note := if r.isIdle then none else some .incomplete }
    | .middle | .last => r.extend packet.suite header piece

end Reassembler

end NameRelay
