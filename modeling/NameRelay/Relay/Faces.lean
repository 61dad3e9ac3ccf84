-- SUMMARY: The interfaces and faces of a relay.
import NameRelay.Relay.Basic

/-!
# Interfaces and faces

Interfaces are numbered in the order in which they were added and stay. A face belongs to one
interface and one address, and no two faces have both in common. Tearing a face down takes
everything with it that refers to it.
-/

namespace NameRelay

namespace Relay

-- ---------------------------------------------------------------------------
-- Interfaces
-- ---------------------------------------------------------------------------

/-- Adds an interface; the answer is its number. -/
def addInterface (r : Relay) (address : FaceAddress) (mtu : Nat) (flags : FaceFlags) :
    Except RelayError Nat × Relay :=
  let index := r.interfaces.length
  if maxInterfaces ≤ index then (.error .tooManyInterfaces, r)
  else
    let r := r.log .info ("Interface " ++ toString index ++ " on " ++ address.text)
    (.ok index, { r with interfaces := r.interfaces ++ [.fresh address mtu flags] })

/-- Sets the time between two transmissions of an interface; none lets them follow at once. -/
def setPacing (r : Relay) (index : Nat) (pacing : Option Nat) : Except RelayError Unit × Relay :=
  if index < r.interfaces.length then
    (.ok (), r.modifyInterface index fun i => { i with pacing })
  else
    (.error (.noSuchInterface index), r)

-- ---------------------------------------------------------------------------
-- Faces
-- ---------------------------------------------------------------------------

/-- The face of an address on an interface. -/
def findFace? (r : Relay) (index : Nat) (address : FaceAddress) : Option FaceKey :=
  r.faces.find? fun f => f.interface == some index && f.address == address

/-- The face of an address on an interface. One that is there gains flags; a new one also has what
    the interface hands down. -/
def addFace (r : Relay) (index : Nat) (address : FaceAddress) (flags : FaceFlags) :
    Except RelayError FaceKey × Relay :=
  match r.interfaces[index]? with
  | none => (.error (.noSuchInterface index), r)
  | some interface =>
    match r.findFace? index address with
    | some key => (.ok key, r.modifyFace key fun f => { f with flags := f.flags.union flags })
    | none =>
      let r := r.log .info ("New face " ++ address.text ++ " on interface " ++ toString index)
      let (key, faces) := r.faces.insert
        (.fresh (some index) address (flags.union interface.flags) interface.mtu r.now)
      (.ok key, { r with faces })

/-- The face of an address on an interface, as it is or new. -/
def faceFor (r : Relay) (index : Nat) (address : FaceAddress) : Except RelayError FaceKey × Relay :=
  match r.findFace? index address with
  | some key => (.ok key, r)
  | none => r.addFace index address {}

/-- The face that stands for the local application; it is made when it is first needed. -/
def applicationFace (r : Relay) : FaceKey × Relay :=
  match r.localFace.filter r.faces.contains with
  | some key => (key, r)
  | none =>
    let (key, faces) := r.faces.insert (.fresh none .application { pinned := true } 0 r.now)
    (key, { r with faces, localFace := some key })

/-- Takes the units of a face out of every ring; the number is how many there were. -/
def withdraw (key : FaceKey) : List Interface → Nat × List Interface
  | [] => (0, [])
  | i :: rest =>
    let (queue, removed) := i.queue.removeWhere fun unit => unit.face == some key
    let (more, rest) := withdraw key rest
    (removed + more, { i with queue } :: rest)

/-- Tears a face down: nothing waits for it, leads to it or is queued for it any more. -/
def removeFace (r : Relay) (key : FaceKey) : Except RelayError Unit × Relay :=
  match r.faces.remove key with
  | (none, _) => (.error .noSuchFace, r)
  | (some face, faces) =>
    let (interests, pending) := r.pending.removeFace key
    let (routes, kept) := r.routes.removeFace key
    let (units, interfaces) := withdraw key r.interfaces
    let r := { r with
      faces
      pending
      interfaces
      routes := kept
      localFace := if r.localFace = some key then none else r.localFace }
    (.ok (), r.log .info ("Removed face " ++ face.address.text ++ ": " ++ toString interests ++
      " interests, " ++ toString routes ++ " routes, " ++ toString (face.queue.length + units) ++
      " queued packets dropped"))

end Relay

end NameRelay
