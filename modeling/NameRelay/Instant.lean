-- SUMMARY: Points in time, in microseconds, that saturate at the ends of the clock.
import NameRelay.Bytes

/-!
# Instants

The clock counts microseconds in a 64-bit word. Arithmetic on instants never wraps: it stops at
zero and at the largest word, so that a timeout far in the future stays in the future.
-/

namespace NameRelay

/-- Microseconds on the relay's clock. -/
structure Instant where
  micros : Nat
  deriving DecidableEq, Repr, Inhabited

namespace Instant

/-- The number of microseconds in a second. -/
def microsPerSecond : Nat := 1000000

/-- The number of microseconds in a millisecond. -/
def microsPerMilli : Nat := 1000

def ofSecs (secs : Nat) : Instant := ⟨saturatingMul secs microsPerSecond⟩

def ofMillis (millis : Nat) : Instant := ⟨saturatingMul millis microsPerMilli⟩

/-- The instant `us` microseconds later, or the last one there is. -/
def adding (t : Instant) (us : Nat) : Instant := ⟨saturatingAdd t.micros us⟩

/-- The instant `us` microseconds earlier, or the first one. -/
def removing (t : Instant) (us : Nat) : Instant := ⟨t.micros - us⟩

def addingSecs (t : Instant) (secs : Nat) : Instant :=
  t.adding (saturatingMul secs microsPerSecond)

def addingMillis (t : Instant) (millis : Nat) : Instant :=
  t.adding (saturatingMul millis microsPerMilli)

/-- Microseconds from `earlier` to `t`; none if `earlier` is the later of the two. -/
def since? (t earlier : Instant) : Option Nat :=
  if earlier.micros ≤ t.micros then some (t.micros - earlier.micros) else none

protected def min (a b : Instant) : Instant := ⟨min a.micros b.micros⟩

protected def max (a b : Instant) : Instant := ⟨max a.micros b.micros⟩

/-- Whole seconds since the start of the clock. -/
def wholeSecs (t : Instant) : Nat := t.micros / microsPerSecond

end Instant

end NameRelay
