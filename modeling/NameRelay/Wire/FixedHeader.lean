-- SUMMARY: The eight-byte header in front of CCNx and Cisco packets.
import NameRelay.Wire.Cursor
import NameRelay.Wire.FrontBuffer

/-!
# Fixed headers

Two suites open a packet with the same eight bytes: version, packet type, packet length (two
bytes), hop limit, a field of two bytes whose use differs, and the header length. A header longer
than eight bytes holds optional parts, which are skipped. Both lengths count from the first byte.
-/

namespace NameRelay

structure FixedHeader where
  packetType : UInt8
  packetLength : Nat
  hopLimit : UInt8
  /-- The two bytes whose use differs. -/
  extra : Nat
  headerLength : Nat
  deriving DecidableEq, Repr

namespace FixedHeader

/-- The number of bytes of the header without optional parts. -/
def size : Nat := 8

/-- The only version there is. -/
def version : UInt8 := 1

/-- Reads a header from the front of `bytes` and checks that its lengths fit each other and the
    bytes. `badVersion` and `badLength` say what is wrong in terms of the suite. -/
def read (badVersion badLength : Malformation) (bytes : Bytes) :
    Except DecodeError FixedHeader := do
  let (v, c) ← (Cursor.ofBytes bytes).byte
  if v ≠ version then throw (.malformed badVersion)
  let (packetType, c) ← c.byte
  let (packetLength, c) ← c.word16
  let (hopLimit, c) ← c.byte
  let (extra, c) ← c.word16
  let (headerLength, _) ← c.byte
  if headerLength.toNat < size ∨ packetLength < headerLength.toNat then
    throw (.malformed badLength)
  if packetLength > bytes.length then throw (.lengthOverrun packetLength bytes.length)
  return ⟨packetType, packetLength, hopLimit, extra, headerLength.toNat⟩

/-- A packet of `packetLength` bytes with the header taken off. -/
def body (h : FixedHeader) (packet : Bytes) : Cursor :=
  ⟨h.headerLength, packet.drop h.headerLength⟩

/-- Writes a header without optional parts in front of the rest of a packet, which takes `inner`
    bytes. -/
def write (packetType hopLimit : UInt8) (extra inner : Nat) : Write Unit := do
  Write.byte (UInt8.ofNat size)
  Write.word16 extra
  Write.byte hopLimit
  Write.length16 (inner + size)
  Write.byte packetType
  Write.byte version

end FixedHeader

end NameRelay
