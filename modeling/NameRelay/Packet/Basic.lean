-- SUMMARY: Packets that were read: their bytes, and what the bytes say.
import NameRelay.Packet.Fragment
import NameRelay.Packet.Details
import NameRelay.Name.Uri
import NameRelay.Wire.Cursor

/-!
# Packets

A packet keeps the bytes it was read from, and what they say: a message has a name and perhaps a
content, a fragment has a header and a piece of another packet. Contents and pieces are stretches
of the packet's own bytes.

Handing a packet on lowers its hop limit. In the suites that have one this replaces a single byte,
and a packet that has no hop left is not handed on.
-/

namespace NameRelay

/-- What a packet with a name is for. -/
inductive MessageKind where
  | interest
  | content
  | nack
  deriving DecidableEq, Repr

/-- What the bytes of a packet say, its details apart. -/
inductive Body where
  | message (kind : MessageKind) (name : Name) (content : Option Span)
  | fragment (header : FragmentHeader) (piece : Span)
  deriving DecidableEq, Repr

/-- A packet that was read. -/
structure Packet where
  bytes : Bytes
  body : Body
  details : Details
  deriving DecidableEq, Repr

namespace Packet

def suite (p : Packet) : Suite := p.details.suite

def name? (p : Packet) : Option Name :=
  match p.body with
  | .message _ name _ => some name
  | .fragment _ _ => none

/-- Where the content, or the piece of a fragment, stands in the bytes. -/
def contentSpan? (p : Packet) : Option Span :=
  match p.body with
  | .message _ _ content => content
  | .fragment _ piece => some piece

/-- The content, or the piece of a fragment. -/
def content? (p : Packet) : Option Bytes := p.contentSpan?.map (·.of p.bytes)

def fragment? (p : Packet) : Option FragmentHeader :=
  match p.body with
  | .message _ _ _ => none
  | .fragment header _ => some header

def isInterest (p : Packet) : Bool :=
  match p.body with
  | .message .interest _ _ => true
  | _ => false

def nonce (p : Packet) : Option Bytes := p.details.nonce

/-- Whether two packets are the same on the wire. -/
def sameBytes (p q : Packet) : Bool := p.suite == q.suite && p.bytes == q.bytes

/-- The name of the packet's kind. -/
def kindName (p : Packet) : String :=
  match p.body with
  | .message .interest _ _ => "Interest"
  | .message .content _ _ => "Content"
  | .message .nack _ _ => "Nack"
  | .fragment _ _ => "Fragment"

/-- How a record of events calls the packet. -/
def label (p : Packet) : String :=
  match p.name? with
  | some name => name.toUri
  | none => "<unnamed " ++ p.kindName ++ ">"

/-- Where the hop limit of a CCNx packet stands: behind version, packet type and length. -/
def ccnxHopLimitOffset : Nat := 4

/-- Where the hop limit stands in the bytes and what it is, if the packet has one. -/
def hopLimit? (p : Packet) : Option (Nat × UInt8) :=
  match p.details with
  | .ccnx d => some (ccnxHopLimitOffset, d.hopLimit)
  | .iot ⟨some ttl, offset⟩ => some (offset, ttl)
  | _ => none

/-- The packet with one byte replaced; none if its bytes do not reach so far. -/
def withByteReplaced (p : Packet) (offset : Nat) (value : UInt8) : Option Packet :=
  if offset < p.bytes.length then some { p with bytes := p.bytes.set offset value } else none

/-- The packet with its hop limit lowered by one; none if it has no hop left. Packets without a hop
    limit stay as they are. -/
def withLoweredHopLimit (p : Packet) : Option Packet :=
  match p.hopLimit? with
  | some (offset, limit) =>
    if limit ≤ 1 then none
    else (p.withByteReplaced offset (limit - 1)).map fun q =>
      { q with details := p.details.withHopLimit (limit - 1) }
  | none => some p

end Packet

end NameRelay
