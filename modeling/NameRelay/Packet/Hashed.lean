-- SUMMARY: Packets with the digest that was computed of them.
import NameRelay.Packet.Basic

/-!
# Remembered digests

The digest of a packet is computed when it is first asked for, and remembered with the packet. A
packet that is handed on with a lower hop limit has other bytes, so nothing is remembered of it.
-/

namespace NameRelay

/-- A packet and its digest, if it was computed. -/
structure HashedPacket where
  packet : Packet
  digest? : Option Bytes
  deriving DecidableEq, Repr

namespace HashedPacket

/-- A packet of which no digest was computed. -/
def fresh (packet : Packet) : HashedPacket := ⟨packet, none⟩

/-- The digest of the packet, computed with `hash` if it is not remembered. A hash that fails leaves
    nothing to remember. -/
def digestWith (h : HashedPacket) (hash : Bytes → Option Bytes) : Option Bytes × HashedPacket :=
  match h.digest? with
  | some digest => (some digest, h)
  | none =>
    match hash h.packet.bytes with
    | some digest => (some digest, { h with digest? := some digest })
    | none => (none, h)

/-- The packet as it is handed on: with a lower hop limit and nothing remembered, or as it is if it
    has no hop limit. None if it has no hop left. -/
def withLoweredHopLimit (h : HashedPacket) : Option HashedPacket :=
  match h.packet.hopLimit? with
  | some _ => h.packet.withLoweredHopLimit.map fresh
  | none => some h

end HashedPacket

end NameRelay
