-- SUMMARY: Faces, the neighbours of a relay, and the interfaces they are reached through.
import NameRelay.Face.Address
import NameRelay.Face.Ring
import NameRelay.Fragment.Fragmenter
import NameRelay.Fragment.Reassembler
import NameRelay.Instant
import NameRelay.Table.Slots

/-!
# Faces and interfaces

A face is one neighbour as the relay sees it: the peer behind an address on one of its interfaces,
or the local application. A face holds the packets that wait for their turn and hands them to its
interface one at a time. An interface queues units, which are whole packets or single fragments,
and gives them to whoever transmits.
-/

namespace NameRelay

/-- What is special about a face. -/
structure FaceFlags where
  /-- Never aged out. -/
  pinned : Bool := false
  /-- Interests may go back to where they came from. -/
  reflects : Bool := false
  /-- Already answered in the current round of deliveries. -/
  served : Bool := false
  /-- Interests from the face are propagated even if they are already pending. -/
  forwardsAll : Bool := false
  deriving DecidableEq, Repr, Inhabited

namespace FaceFlags

/-- The flags as bits, `pinned` lowest. -/
def bits (f : FaceFlags) : Nat :=
  f.pinned.toNat + 2 * f.reflects.toNat + 4 * f.served.toNat + 8 * f.forwardsAll.toNat

/-- The flags from their bits; other bits mean nothing. -/
def ofBits (n : Nat) : FaceFlags := ⟨n.testBit 0, n.testBit 1, n.testBit 2, n.testBit 3⟩

/-- What the faces of an interface inherit from it. -/
def inherited (f : FaceFlags) : FaceFlags := { reflects := f.reflects, forwardsAll := f.forwardsAll }

/-- The flags of both. -/
def union (f g : FaceFlags) : FaceFlags :=
  ⟨f.pinned || g.pinned, f.reflects || g.reflects, f.served || g.served,
    f.forwardsAll || g.forwardsAll⟩

end FaceFlags

/-- A packet that waits for its turn. -/
structure QueuedPacket where
  suite : Suite
  bytes : Bytes
  deriving DecidableEq, Repr

/-- The packet that a face handed to its interface. -/
structure InFlight where
  bytes : Bytes
  /-- How many of its units are still queued there. -/
  remaining : Nat
  deriving DecidableEq, Repr

/-- One neighbour. -/
structure Face where
  /-- The interface that the neighbour is reached through; none for the local application. -/
  interface : Option Nat
  address : FaceAddress
  flags : FaceFlags
  lastUsed : Instant
  /-- Packets waiting behind the one in flight. -/
  queue : List QueuedPacket
  inFlight : Option InFlight
  fragmenter : Fragmenter
  reassembler : Reassembler
  deriving Repr

abbrev FaceKey := Key Face

namespace Face

/-- A face that has neither sent nor received anything. -/
def fresh (interface : Option Nat) (address : FaceAddress) (flags : FaceFlags) (mtu : Nat)
    (now : Instant) : Face where
  interface := interface
  address := address
  flags := flags
  lastUsed := now
  queue := []
  inFlight := none
  fragmenter := .ofMtu mtu
  reassembler := .idle

/-- Whether the face is the local application. -/
def isLocal (f : Face) : Bool := f.address == .application

/-- Whether these bytes wait or are being sent already. -/
def isQueued (f : Face) (bytes : Bytes) : Bool :=
  (f.inFlight.any fun p => p.bytes == bytes) || f.queue.any fun p => p.bytes == bytes

end Face

/-- How a record of events shows a face. -/
def FaceKey.text (key : FaceKey) : String :=
  "FaceToken(SlotKey \x7b index: " ++ toString key.index ++ ", generation: " ++
    toString key.generation.toNat ++ " \x7d)"

/-- A whole packet or a single fragment on its way out. -/
structure Transmission where
  face : Option FaceKey
  destination : FaceAddress
  bytes : Bytes
  deriving DecidableEq

/-- How many units an interface queues. -/
def maxQueueLength : Nat := 64

/-- How many interfaces a relay has at most. -/
def maxInterfaces : Nat := 10

/-- A transport endpoint of the relay. -/
structure Interface where
  address : FaceAddress
  /-- The longest unit the interface carries, zero if there is no limit. -/
  mtu : Nat
  flags : FaceFlags
  /-- The time between two transmissions in microseconds; none if there is no need to wait. -/
  pacing : Option Nat
  queue : Ring Transmission maxQueueLength
  /-- The timer that ends the current wait. -/
  timer : Option Nat
  /-- Whether the units are being given away one after the other right now. -/
  draining : Bool

/-- An interface with an empty queue. It keeps the flags that its faces inherit. -/
def Interface.fresh (address : FaceAddress) (mtu : Nat) (flags : FaceFlags) : Interface where
  address := address
  mtu := mtu
  flags := flags.inherited
  pacing := none
  queue := .empty
  timer := none
  draining := false

end NameRelay
