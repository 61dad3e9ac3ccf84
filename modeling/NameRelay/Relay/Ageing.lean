-- SUMMARY: The regular sweep over the tables of a relay.
import NameRelay.Relay.Faces
import NameRelay.Relay.Forward

/-!
# Ageing

The sweep drops contents that nobody used for a while and marks those stale whose freshness ran out.
It drops interests that wait too long or were sent again too often, and sends the others again. It
tears down faces that were silent for too long. Pinned contents and pinned faces stay.
-/

namespace NameRelay

/-- Microseconds from `earlier` to `t`, none of them if the clock went backwards. -/
def Instant.elapsed (t earlier : Instant) : Nat := t.micros - earlier.micros

/-- Whether the freshness of a content has run out. A content without a period stays fresh. -/
def StoredContent.isOverdue (e : StoredContent) (now : Instant) : Bool :=
  e.packet.details.freshness.any fun period =>
    saturatingMul period.toNat Instant.microsPerMilli ≤ now.elapsed e.inserted

namespace Relay

-- ---------------------------------------------------------------------------
-- Contents
-- ---------------------------------------------------------------------------

def isExpiredContent (r : Relay) (e : StoredContent) : Bool :=
  !e.flags.pinned && r.timeouts.content ≤ r.now.elapsed e.lastUsed

/-- What is to be said about a content that was not used for too long. -/
def timedOutContent (e : StoredContent) : LogRecord :=
  ⟨.debug, "Content " ++ e.packet.label ++ " timed out"⟩

/-- Marks the contents whose freshness has run out. -/
def markStale (r : Relay) : Relay :=
  let mark (e : StoredContent) : StoredContent :=
    if e.isOverdue r.now then { e with flags := { e.flags with stale := true } } else e
  { r with contents := { r.contents with slots := r.contents.slots.mapEntries mark } }

def ageContents (r : Relay) : Relay :=
  let (expired, contents) := r.contents.expire r.isExpiredContent
  ({ r with contents }.logAll (expired.map timedOutContent)).markStale

-- ---------------------------------------------------------------------------
-- Interests
-- ---------------------------------------------------------------------------

def isExpiredInterest (r : Relay) (e : PendingInterest) : Bool :=
  r.timeouts.interest ≤ r.now.elapsed e.lastUsed || r.timeouts.maxRetransmissions < e.retries

/-- What is to be said about an interest that waited for too long. -/
def timedOutInterest (e : PendingInterest) : LogRecord :=
  ⟨.debug, "Interest " ++ e.packet.label ++ " timed out after " ++ toString e.retries ++ " retries"⟩

/-- Whether it is time to send an interest again. -/
def isDue (r : Relay) (e : PendingInterest) : Bool :=
  r.timeouts.ageingInterval ≤ r.now.elapsed e.lastAttempt &&
    e.packet.suite.mayForward e.packet

/-- Sends an interest again, which counts if anybody took it. -/
def retransmit (r : Relay) (key : InterestKey) : Relay :=
  match r.propagate key with
  | (0, r) => r
  | (_, r) =>
    { r with pending := r.pending.modify key fun e => { e with retries := e.retries + 1 } }

def ageInterests (r : Relay) : Relay :=
  let (expired, pending) := r.pending.expire r.isExpiredInterest
  let r : Relay := { r with pending }
  let r := r.logAll (expired.map fun e => timedOutInterest e.2)
  let due := (r.pending.entries.filter fun e => r.isDue e.2).map (·.1)
  due.foldl retransmit r

-- ---------------------------------------------------------------------------
-- Faces
-- ---------------------------------------------------------------------------

def isIdle (r : Relay) (f : Face) : Bool :=
  !f.flags.pinned && r.timeouts.face ≤ r.now.elapsed f.lastUsed

def ageFaces (r : Relay) : Relay :=
  let idle := (r.faces.entries.filter fun e => r.isIdle e.2).map (·.1)
  idle.foldl (fun r key => (r.removeFace key).2) r

/-- One sweep. -/
def age (r : Relay) : Relay := r.ageContents.ageInterests.ageFaces

end Relay

end NameRelay
