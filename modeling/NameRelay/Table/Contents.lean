-- SUMMARY: The content store: packets kept to answer later interests.
import NameRelay.Instant
import NameRelay.Log
import NameRelay.Name.Matching
import NameRelay.Packet.Basic
import NameRelay.Table.Slots

/-!
# Content store

The store keeps content packets, each once. If it has a limit and is full, a new packet takes the
place of the one that was used least recently, but pinned packets stay: a store full of pinned
packets refuses. A limit of zero keeps pinned packets only, and a limit below zero is none.
-/

namespace NameRelay

/-- What is special about a stored packet. -/
structure ContentFlags where
  /-- Never evicted and never aged out. -/
  pinned : Bool := false
  /-- Its freshness has run out. -/
  stale : Bool := false
  deriving DecidableEq, Repr, Inhabited

namespace ContentFlags

/-- The flags as bits, `pinned` lowest. -/
def bits (f : ContentFlags) : Nat := f.pinned.toNat + 2 * f.stale.toNat

/-- The flags from their bits; other bits mean nothing. -/
def ofBits (n : Nat) : ContentFlags := ⟨n.testBit 0, n.testBit 1⟩

end ContentFlags

/-- A stored packet. -/
structure StoredContent where
  packet : Packet
  flags : ContentFlags
  inserted : Instant
  lastUsed : Instant
  /-- How often the packet answered an interest. -/
  served : Nat
  deriving Repr

abbrev ContentKey := Key StoredContent

/-- The content store. -/
structure ContentStore where
  slots : Slots StoredContent
  limit : Int

/-- What became of a packet that was to be stored. -/
inductive StoreOutcome where
  /-- It was stored, perhaps in the place of another. -/
  | stored (key : ContentKey) (evicted : Option StoredContent)
  /-- The same bytes are there already, or nothing is kept that is not pinned. -/
  | unchanged
  /-- Every place is taken by a pinned packet. -/
  | full

/-- What is to be said about the storing of `packet`. -/
def StoreOutcome.records (packet : Packet) : StoreOutcome → List LogRecord
  | stored _ (some evicted) =>
    [⟨.debug, s!"Evicted {evicted.packet.label} from the content store"⟩]
  | full => [⟨.warn, s!"Content store full, dropping {packet.label}"⟩]
  | _ => []

namespace ContentStore

def empty (limit : Int) : ContentStore := ⟨.empty, limit⟩

/-- Whether packets that are not pinned are kept. -/
def isEnabled (s : ContentStore) : Bool := s.limit != 0

def size (s : ContentStore) : Nat := s.slots.size

def entries (s : ContentStore) : List (ContentKey × StoredContent) := s.slots.entries

def get? (s : ContentStore) (key : ContentKey) : Option StoredContent := s.slots.get? key

def modify (s : ContentStore) (key : ContentKey) (f : StoredContent → StoredContent) :
    ContentStore := { s with slots := s.slots.modify key f }

def remove (s : ContentStore) (key : ContentKey) : Option StoredContent × ContentStore :=
  let (removed, slots) := s.slots.remove key
  (removed, { s with slots })

/-- The entry with exactly these bytes. -/
def duplicate? (s : ContentStore) (packet : Packet) : Option ContentKey :=
  s.slots.find? fun e => e.packet.sameBytes packet

/-- The largest number of answers that is counted. -/
def maxServed : Nat := 0xffffffff

/-- Counts an answer. -/
def touch (s : ContentStore) (key : ContentKey) (now : Instant) : ContentStore :=
  s.modify key fun e => { e with lastUsed := now, served := min (e.served + 1) maxServed }

/-- The entry that is not pinned and was used least recently, the first of several. -/
def leastRecent? (s : ContentStore) : Option ContentKey :=
  let candidates := s.entries.filter fun e => !e.2.flags.pinned
  (candidates.foldl (fun oldest e =>
    match oldest with
    | none => some e
    | some o => if e.2.lastUsed.micros < o.2.lastUsed.micros then some e else some o)
    none).map (·.1)

/-- Removes the least recently used entry that is not pinned. -/
def evict (s : ContentStore) : Option StoredContent × ContentStore :=
  match s.leastRecent? with
  | some key => s.remove key
  | none => (none, s)

/-- Whether the store has reached its limit. -/
def isFull (s : ContentStore) : Bool := 0 < s.limit && s.limit ≤ s.size

/-- Puts a packet in, without a check. -/
def add (s : ContentStore) (packet : Packet) (flags : ContentFlags) (now : Instant) :
    ContentKey × ContentStore :=
  let (key, slots) := s.slots.insert ⟨packet, flags, now, now, 0⟩
  (key, { s with slots })

/-- Stores a packet. -/
def insert (s : ContentStore) (packet : Packet) (flags : ContentFlags) (now : Instant) :
    StoreOutcome × ContentStore :=
  if (s.duplicate? packet).isSome || (!s.isEnabled && !flags.pinned) then
    (.unchanged, s)
  else if s.isFull then
    match s.evict with
    | (none, s) => (.full, s)
    | (some evicted, s) =>
      let (key, s) := s.add packet flags now
      (.stored key (some evicted), s)
  else
    let (key, s) := s.add packet flags now
    (.stored key none, s)

/-- Whether an entry has exactly this name. -/
def isNamed (name : Name) (e : StoredContent) : Bool := e.packet.name?.any (·.same name)

/-- Removes the entries with this name; the number is how many. -/
def removeNamed (s : ContentStore) (name : Name) : Nat × ContentStore :=
  let (removed, slots) := s.slots.removeWhere (isNamed name)
  (removed.length, { s with slots })

/-- Marks the entries with this name as stale; the number is how many there are. -/
def markStale (s : ContentStore) (name : Name) : Nat × ContentStore :=
  let mark (e : StoredContent) : StoredContent :=
    if isNamed name e then { e with flags := { e.flags with stale := true } } else e
  ((s.entries.filter fun e => isNamed name e.2).length, { s with slots := s.slots.mapEntries mark })

/-- Removes and returns the entries that a test selects. -/
def expire (s : ContentStore) (expired : StoredContent → Bool) :
    List StoredContent × ContentStore :=
  let (removed, slots) := s.slots.removeWhere expired
  (removed.map (·.2), { s with slots })

end ContentStore

end NameRelay
