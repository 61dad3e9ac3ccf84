-- SUMMARY: Timers that wait for their deadlines.
import NameRelay.Relay.Host

/-!
# Timer queues

Deadlines stand in order, the earliest first and those of one instant in the order in which they
were set. Cancelling a timer only takes its event away; its deadline stays until it comes to the
front.
-/

namespace NameRelay

/-- When a timer goes off, and its handle. -/
structure Deadline where
  time : Instant
  handle : Nat
  deriving DecidableEq, Repr

/-- Whether `a` comes before `b`: it is earlier, or it was set first. -/
def Deadline.before (a b : Deadline) : Bool :=
  a.time.micros < b.time.micros || (a.time == b.time && a.handle < b.handle)

/-- Timers and what they are for. -/
structure TimerQueue where
  /-- The deadlines in order, those of cancelled timers among them. -/
  deadlines : List Deadline
  /-- The timers that were not cancelled and have not gone off. -/
  armed : List (Nat × TimerEvent)
  /-- The handle that was given out last; the first is one. -/
  lastHandle : Nat
  deriving DecidableEq, Repr

namespace TimerQueue

def empty : TimerQueue := ⟨[], [], 0⟩

/-- Puts a deadline in its place. -/
def place (d : Deadline) : List Deadline → List Deadline
  | [] => [d]
  | e :: rest => if d.before e then d :: e :: rest else e :: place d rest

/-- The event of an armed timer. -/
def event? (q : TimerQueue) (handle : Nat) : Option TimerEvent :=
  (q.armed.find? (·.1 == handle)).map (·.2)

/-- Disarms a timer. One that is not armed changes nothing. -/
def disarm (q : TimerQueue) (handle : Nat) : TimerQueue :=
  { q with armed := q.armed.filter (·.1 != handle) }

/-- Sets a timer that goes off `delay` microseconds after `now`. -/
def set (q : TimerQueue) (now : Instant) (delay : Nat) (event : TimerEvent) : Nat × TimerQueue :=
  let handle := q.lastHandle + 1
  (handle, ⟨place ⟨now.adding delay, handle⟩ q.deadlines, q.armed ++ [(handle, event)], handle⟩)

/-- Takes a timer back. -/
def cancel (q : TimerQueue) (handle : Nat) : TimerQueue := q.disarm handle

/-- When the next timer goes off. The deadlines of cancelled timers in front of it are dropped. -/
def next? (q : TimerQueue) : Option Instant × TimerQueue :=
  let waiting := q.deadlines.dropWhile fun d => (q.event? d.handle).isNone
  (waiting.head?.map (·.time), { q with deadlines := waiting })

/-- Disarms the timers of some deadlines and returns their events. -/
def fire (q : TimerQueue) : List Deadline → List TimerEvent × TimerQueue
  | [] => ([], q)
  | d :: rest =>
    let (more, fired) := (q.disarm d.handle).fire rest
    ((q.event? d.handle).toList ++ more, fired)

/-- Whether a deadline has come. -/
def isDue (now : Instant) (d : Deadline) : Bool := d.time.micros ≤ now.micros

/-- Disarms the timers whose deadline has come, and returns their events in order. -/
def takeExpired (q : TimerQueue) (now : Instant) : List TimerEvent × TimerQueue :=
  { q with deadlines := q.deadlines.dropWhile (isDue now) }.fire
    (q.deadlines.takeWhile (isDue now))

end TimerQueue

end NameRelay
