-- SUMMARY: The state of a relay.
import NameRelay.Config.Basic
import NameRelay.Relay.Error
import NameRelay.Relay.Host
import NameRelay.Table.Contents
import NameRelay.Table.Nonces
import NameRelay.Table.Pending
import NameRelay.Table.Routes

/-!
# Relays

A relay owns every table: faces and interfaces, pending interests, routes, contents and recent
nonces. Whatever drives it hands in bytes that came and timers that went off; each call runs to its
end and leaves its effects with the host.
-/

namespace NameRelay

/-- The periods after which things happen, in microseconds. -/
structure Timeouts where
  content : Nat
  interest : Nat
  face : Nat
  ageingInterval : Nat
  /-- How often an interest is sent again before it is dropped. -/
  maxRetransmissions : Nat
  deriving DecidableEq, Repr

/-- The periods of a configuration. One that is too long for the clock is the longest there is. -/
def Config.timeouts (c : Config) : Timeouts where
  content := saturatingMul c.contentTimeoutSecs Instant.microsPerSecond
  interest := saturatingMul c.interestTimeoutSecs Instant.microsPerSecond
  face := saturatingMul c.faceTimeoutSecs Instant.microsPerSecond
  ageingInterval := saturatingMul c.ageingIntervalMillis Instant.microsPerMilli
  maxRetransmissions := c.maxRetransmissions

/-- What a relay decided to do with a packet, whether or not anything went out in the end. -/
inductive Deed where
  /-- The content was served to a face. -/
  | served (content : Packet) (face : FaceKey)
  /-- The interest was handed to the destination of a route. -/
  | handed (interest : Packet) (destination : Destination)
  /-- An interest began to wait, under a new key. -/
  | began (key : InterestKey)
  /-- A pending interest was handed to the routes, and so many destinations took it. -/
  | tried (key : InterestKey) (time : Instant) (takers : Nat)
  deriving DecidableEq

/-- The owner of every table. -/
structure Relay where
  host : Host
  faces : Slots Face
  interfaces : List Interface
  pending : PendingTable
  routes : RouteTable
  contents : ContentStore
  nonces : NonceTable
  timeouts : Timeouts
  /-- The face that stands for the local application, once there is one. -/
  localFace : Option FaceKey
  ageingTimer : Option Nat
  /-- What the next nonce of the relay's own interests is made from. -/
  nonceSeed : UInt32
  /-- What the relay did so far, in order. No decision depends on it. -/
  history : List Deed

namespace Relay

/-- A relay without interfaces and routes, with the limits of a configuration. -/
def withLimits (host : Host) (c : Config) : Relay where
  host := host
  faces := .empty
  interfaces := []
  pending := .empty
  routes := .empty
  contents := .empty c.maxCacheEntries
  nonces := .empty c.maxNonces
  timeouts := c.timeouts
  localFace := none
  ageingTimer := none
  nonceSeed := UInt32.ofNat host.now.micros ||| 1
  history := []

/-- A relay with the limits that hold if nothing is said. -/
def fresh (host : Host) : Relay := withLimits host {}

def now (r : Relay) : Instant := r.host.now

/-- Records an effect. -/
def emit (r : Relay) (e : Effect) : Relay := { r with host := r.host.emit e }

/-- Leaves a record of what happened. -/
def log (r : Relay) (level : LogLevel) (text : String) : Relay := r.emit (.log ⟨level, text⟩)

def logAll (r : Relay) (records : List LogRecord) : Relay :=
  records.foldl (fun r record => r.emit (.log record)) r

/-- Adds a deed to the history. -/
def note (r : Relay) (d : Deed) : Relay := { r with history := r.history ++ [d] }

def face? (r : Relay) (key : FaceKey) : Option Face := r.faces.get? key

def modifyFace (r : Relay) (key : FaceKey) (f : Face → Face) : Relay :=
  { r with faces := r.faces.modify key f }

def modifyInterface (r : Relay) (index : Nat) (f : Interface → Interface) : Relay :=
  { r with interfaces := r.interfaces.modify index f }

/-- Asks the host for a timer. -/
def setTimer (r : Relay) (delay : Nat) (event : TimerEvent) : Option Nat × Relay :=
  let (handle, host) := r.host.setTimer delay event
  (handle, { r with host })

def cancelTimer (r : Relay) (handle : Nat) : Relay := { r with host := r.host.cancelTimer handle }

/-- The digest of `content`, which is named `name`, if an interest for `wanted` may end in it. -/
def digestFor (r : Relay) (wanted name : Name) (content : Packet) : Option Bytes :=
  if wanted.needsDigest name then r.host.digest content.bytes else none

end Relay

end NameRelay
