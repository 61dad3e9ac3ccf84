-- SUMMARY: What a relay does with bytes that come in.
import NameRelay.Fragment.Reassembler
import NameRelay.Relay.Datagram
import NameRelay.Relay.Faces
import NameRelay.Relay.Forward

/-!
# Receiving

The packets of a buffer are handled one after the other. A fragment goes to the reassembler of the
face it came from, and the packet that it completes is handled like a buffer of its own, but a
fragment inside a fragment is dropped.
-/

namespace NameRelay

namespace Relay

/-- What happens to a fragment from a face. -/
abbrev FragmentHandler := Relay → FaceKey → Packet → Except RelayError Unit × Relay

/-- Takes in an interest whose hop limit allows another hop. -/
def handleHop (r : Relay) (key : FaceKey) (interest : Packet) : Except RelayError Unit × Relay :=
  match interest.withLoweredHopLimit with
  | some lowered => r.handleInterest key lowered
  | none => (.ok (), r.log .debug "Hop limit exhausted, dropping interest")

/-- Handles a packet according to its kind. -/
def handlePacket (onFragment : FragmentHandler) (key : FaceKey) (r : Relay) (packet : Packet) :
    Except RelayError Unit × Relay :=
  match packet.body with
  | .message .interest _ _ => r.handleHop key packet
  | .message .content _ _ => r.handleContent key packet
  | .message .nack _ _ => (.ok (), r.log .debug ("Ignoring NACK from " ++ FaceKey.text key))
  | .fragment _ _ => onFragment r key packet

/-- Leaves the records of the reading of a packet and of its arrival. -/
def announce (r : Relay) (key : FaceKey) (packet : Packet) : Relay :=
  (r.logAll (packet.suite.readingRecords packet.bytes)).log .trace
    (packet.kindName ++ " " ++ packet.label ++ " from " ++ FaceKey.text key)

/-- Handles a packet, with records of what it is and of why it could not be handled. -/
def dispatch (onFragment : FragmentHandler) (key : FaceKey) (r : Relay) (packet : Packet) :
    Relay :=
  match handlePacket onFragment key (r.announce key packet) packet with
  | (.ok _, r) => r
  | (.error e, r) =>
    r.log .debug ("Packet from " ++ FaceKey.text key ++ " not handled: " ++ e.message)

/-- Handles the packets of a buffer; the number is how many there were. -/
def handleBuffer (onFragment : FragmentHandler) (r : Relay) (key : FaceKey) (bytes : Bytes) :
    Nat × Relay :=
  let datagram := Datagram.read bytes
  let r := datagram.packets.foldl (dispatch onFragment key) r
  (datagram.packets.length,
    match datagram.obstacle with
    | some o => r.logAll o.records
    | none => r)

/-- Drops a fragment that came inside a fragment. -/
def dropFragment : FragmentHandler := fun r _ _ =>
  (.ok (), r.log .debug "Dropping fragment inside a fragment")

/-- Gives a fragment to the reassembler of its face; the answer is the packet that it completes. -/
def collect (r : Relay) (key : FaceKey) (packet : Packet) :
    Except RelayError (Option Bytes) × Relay :=
  match r.face? key with
  | none => (.error .noSuchFace, r)
  | some face =>
    let step := face.reassembler.accept packet
    let r := r.modifyFace key fun f => { f with reassembler := step.next }
    (.ok step.whole, r.logAll (step.note.map (·.record)).toList)

/-- Collects a fragment, and handles the packet that it completes. -/
def takeFragment : FragmentHandler := fun r key packet =>
  match r.collect key packet with
  | (.error e, r) => (.error e, r)
  | (.ok none, r) => (.ok (), r)
  | (.ok (some whole), r) => (.ok (), (r.handleBuffer dropFragment key whole).2)

/-- The face that bytes came from, which has been heard of now. -/
def sender (r : Relay) (index : Nat) (source : FaceAddress) : Except RelayError FaceKey × Relay :=
  match r.faceFor index source with
  | (.error e, r) => (.error e, r)
  | (.ok key, r) => (.ok key, r.modifyFace key fun f => { f with lastUsed := r.now })

/-- Takes in bytes that came over an interface; the number is how many packets were handled. -/
def receive (r : Relay) (index : Nat) (bytes : Bytes) (source : FaceAddress) :
    Except RelayError Nat × Relay :=
  match r.sender index source with
  | (.error e, r) => (.error e, r)
  | (.ok key, r) =>
    let (handled, r) := r.handleBuffer takeFragment key bytes
    (.ok handled, r)

end Relay

end NameRelay
