-- SUMMARY: The surroundings of a relay: clock, timers, and everything it makes happen.
import NameRelay.Face.Basic
import NameRelay.Log

/-!
# Hosts

A relay does nothing to the world by itself. It reads the clock, may have digests computed, asks for
timers and hands over units, contents and interests, all through its host. What it handed over
is recorded as effects, in order.

A host may refuse a timer. Which requests it grants is a property of the host and not of the relay,
so any pattern of refusals is a host.
-/

namespace NameRelay

/-- What a timer is for. -/
inductive TimerEvent where
  /-- The regular sweep over the tables. -/
  | ageing
  /-- The interface may send its next unit. -/
  | clearToSend (interface : Nat)
  deriving DecidableEq, Repr

/-- A timer that has not gone off. -/
structure ArmedTimer where
  handle : Nat
  delay : Nat
  event : TimerEvent
  deriving DecidableEq, Repr

/-- Something that a relay made happen. -/
inductive Effect where
  /-- A unit was given to an interface for transmission. -/
  | send (interface : Nat) (destination : FaceAddress) (bytes : Bytes)
  /-- A content was handed to the local application. -/
  | deliver (name : Name) (chunk : Option UInt32) (payload : Bytes)
  /-- An interest was shown to the local application. -/
  | tap (name : Name) (bytes : Bytes)
  | timerArmed (timer : ArmedTimer)
  | timerRefused (delay : Nat) (event : TimerEvent)
  | timerCancelled (handle : Nat)
  | log (record : LogRecord)
  deriving DecidableEq

/-- The surroundings of a relay. -/
structure Host where
  now : Instant
  /-- The digest of a byte string, if the host computes digests. -/
  digest : Bytes → Option Bytes
  /-- Whether the host grants a request for a timer, by its number. -/
  grants : Nat → Bool
  /-- How many timers were requested. -/
  requested : Nat
  /-- How many timers were granted, which is the handle of the last. -/
  granted : Nat
  /-- Timers that have not gone off, the oldest first. -/
  armed : List ArmedTimer
  effects : List Effect

namespace Host

/-- A host on which nothing has happened. -/
def fresh (now : Instant) (digest : Bytes → Option Bytes) (grants : Nat → Bool) : Host :=
  ⟨now, digest, grants, 0, 0, [], []⟩

/-- Records an effect. -/
def emit (h : Host) (e : Effect) : Host := { h with effects := h.effects ++ [e] }

/-- Asks for a timer; the answer is its handle, if it is granted. -/
def setTimer (h : Host) (delay : Nat) (event : TimerEvent) : Option Nat × Host :=
  let asked := { h with requested := h.requested + 1 }
  if h.grants h.requested then
    let timer : ArmedTimer := ⟨h.granted + 1, delay, event⟩
    (some timer.handle,
      { asked with granted := timer.handle, armed := h.armed ++ [timer] }.emit (.timerArmed timer))
  else
    (none, asked.emit (.timerRefused delay event))

/-- Takes a timer back. -/
def cancelTimer (h : Host) (handle : Nat) : Host :=
  { h with armed := h.armed.filter (·.handle != handle) }.emit (.timerCancelled handle)

/-- Lets the oldest timer for an event go off; the answer is its handle. -/
def expire? (h : Host) (event : TimerEvent) : Option (Nat × Host) :=
  (h.armed.find? (·.event == event)).map fun timer =>
    (timer.handle, { h with armed := h.armed.filter (·.handle != timer.handle) })

end Host

end NameRelay
