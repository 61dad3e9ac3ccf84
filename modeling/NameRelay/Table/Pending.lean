-- SUMMARY: Interests that wait for content, and the faces that wait with them.
import NameRelay.Face.Basic

/-!
# Pending interests

An entry holds an interest, the face it first came from, and every face that waits for an answer,
each once and in the order in which they came. An entry that no face waits for any more is dropped.
-/

namespace NameRelay

/-- A face that waits, and when it last asked. -/
structure Waiter where
  face : FaceKey
  lastUsed : Instant
  deriving DecidableEq

/-- An interest that waits for content. -/
structure PendingInterest where
  packet : Packet
  origin : FaceKey
  waiters : List Waiter
  retries : Nat
  lastUsed : Instant
  /-- When the interest was last handed to the routes, with or without success. -/
  lastAttempt : Instant

namespace PendingInterest

/-- The entry of an interest that has just come from `origin`. -/
def fresh (packet : Packet) (origin : FaceKey) (now : Instant) : PendingInterest :=
  ⟨packet, origin, [⟨origin, now⟩], 0, now, now⟩

def isWaiting (e : PendingInterest) (face : FaceKey) : Bool := e.waiters.any (·.face == face)

/-- The faces that wait, in the order in which they came. -/
def faces (e : PendingInterest) : List FaceKey := e.waiters.map (·.face)

/-- Lets a face wait. One that waits already only has its time renewed. -/
def addWaiter (e : PendingInterest) (face : FaceKey) (now : Instant) : PendingInterest :=
  if e.isWaiting face then
    { e with
      lastUsed := now
      waiters := e.waiters.map fun w => if w.face = face then { w with lastUsed := now } else w }
  else
    { e with lastUsed := now, waiters := e.waiters ++ [⟨face, now⟩] }

/-- Lets a face wait no longer. -/
def removeWaiter (e : PendingInterest) (face : FaceKey) : PendingInterest :=
  { e with waiters := e.waiters.filter (·.face != face) }

end PendingInterest

abbrev InterestKey := Key PendingInterest

/-- The interests that wait. -/
structure PendingTable where
  slots : Slots PendingInterest

namespace PendingTable

def empty : PendingTable := ⟨.empty⟩

def insert (t : PendingTable) (e : PendingInterest) : InterestKey × PendingTable :=
  let (key, slots) := t.slots.insert e
  (key, ⟨slots⟩)

def get? (t : PendingTable) (key : InterestKey) : Option PendingInterest := t.slots.get? key

def modify (t : PendingTable) (key : InterestKey) (f : PendingInterest → PendingInterest) :
    PendingTable := ⟨t.slots.modify key f⟩

def remove (t : PendingTable) (key : InterestKey) : PendingTable := ⟨(t.slots.remove key).2⟩

def size (t : PendingTable) : Nat := t.slots.size

def entries (t : PendingTable) : List (InterestKey × PendingInterest) := t.slots.entries

/-- The first entry whose interest a test accepts. -/
def find? (t : PendingTable) (p : Packet → Bool) : Option InterestKey :=
  t.slots.find? fun e => p e.packet

/-- Lets a face wait for nothing, and drops the entries that no face waits for; the number is how
    many. -/
def removeFace (t : PendingTable) (face : FaceKey) : Nat × PendingTable :=
  let (dropped, slots) := t.slots.drain (·.removeWaiter face) (·.waiters.isEmpty)
  (dropped.length, ⟨slots⟩)

/-- Removes and returns the entries that a test selects. -/
def expire (t : PendingTable) (expired : PendingInterest → Bool) :
    List (InterestKey × PendingInterest) × PendingTable :=
  let (dropped, slots) := t.slots.removeWhere expired
  (dropped, ⟨slots⟩)

end PendingTable

end NameRelay
