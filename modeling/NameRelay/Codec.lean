-- SUMMARY: What every suite can do with packets, and which suites a relay knows.
import NameRelay.Format.Ccnb.Packet
import NameRelay.Format.Ccnx
import NameRelay.Format.Cisco
import NameRelay.Format.Iot
import NameRelay.Format.Ndn
import NameRelay.Log
import NameRelay.Name.Matching
import NameRelay.Wire.Switch

/-!
# Codecs

A suite reads and writes packets, may split them into fragments, and decides which interests leave
the node, which content answers an interest, and which interests are the same.
-/

namespace NameRelay

namespace Suite

-- ---------------------------------------------------------------------------
-- Reading and writing
-- ---------------------------------------------------------------------------

/-- Reads the packet at the front of `bytes`, any encoding switch already taken off; the number is
    how many bytes it takes. -/
def decode : Suite → Bytes → Except DecodeError (Packet × Nat)
  | ccnb => Ccnb.decode
  | ccnx => Ccnx.decode
  | cisco => Cisco.decode
  | iot => Iot.decode
  | ndn => Ndn.decode

/-- Reads a packet of the suite behind any encoding switch, whatever suite the switch names. -/
def decodeBehindSwitch (suite : Suite) (bytes : Bytes) : Except DecodeError (Packet × Nat) :=
  suite.decode (Switch.dropFrom bytes)

/-- What is to be said about bytes while they are read as a packet of the suite, whether or not the
    reading fails in the end: the selectors that are known but have no effect. -/
def readingRecords (suite : Suite) (bytes : Bytes) : List LogRecord :=
  match suite with
  | ndn => (Ndn.ineffectiveSelectors bytes).map fun type =>
      ⟨.trace, s!"ignoring NDN selector {hexNumber type}"⟩
  | ccnb | ccnx | cisco | iot => []

def encodeInterest : Suite → Name → InterestOptions → Except EncodeError Bytes
  | ccnb => Ccnb.encodeInterest
  | ccnx => Ccnx.encodeInterest
  | cisco => Cisco.encodeInterest
  | iot => Iot.encodeInterest
  | ndn => Ndn.encodeInterest

def encodeContent : Suite → Name → Bytes → ContentOptions → Except EncodeError Bytes
  | ccnb => Ccnb.encodeContent
  | ccnx => Ccnx.encodeContent
  | cisco => Cisco.encodeContent
  | iot => Iot.encodeContent
  | ndn => Ndn.encodeContent

/-- The most bytes that a fragment adds to its piece; none if the suite has no fragments. -/
def fragmentOverhead? : Suite → Option Nat
  | ccnx => some Ccnx.fragmentOverhead
  | iot => some Iot.fragmentOverhead
  | ndn => some Ndn.fragmentOverhead
  | ccnb | cisco => none

def encodeFragment (suite : Suite) (header : FragmentHeader) (piece : Bytes) :
    Except EncodeError Bytes :=
  match suite with
  | ccnx => Ccnx.encodeFragment header piece
  | iot => Iot.encodeFragment header piece
  | ndn => Ndn.encodeFragment header piece
  | ccnb | cisco => .error (.unsupported suite)

-- ---------------------------------------------------------------------------
-- Deciding
-- ---------------------------------------------------------------------------

/-- The largest scope that keeps an interest on the node. -/
def maxLocalScope : Nat := 2

/-- Whether an interest may leave the node: its scope reaches further, or its time to live is not
    used up. An invalid scope stays. -/
def mayForward (suite : Suite) (interest : Packet) : Bool :=
  match suite, interest.details with
  | ccnb, .ccnb d => d.scope.any fun s => maxLocalScope < s.toNat
  | ccnb, _ => false
  | ndn, .ndn d => maxLocalScope < d.scope.toNat
  | ndn, _ => false
  | iot, .iot d => d.ttl != some 0
  | _, _ => true

/-- How many components an interest without selectors of its own allows beyond its name: none but
    the digest. -/
def digestOnly : Nat := 1

/-- Whether `content` answers `interest`, given the digest of the content if it was computed. -/
def admits (suite : Suite) (interest content : Packet) (digest : Option Bytes) : Bool :=
  match interest.name?, content.name? with
  | some wanted, some name =>
    match suite with
    | ccnx | iot => wanted.admits 0 digestOnly name digest
    | cisco => name.same wanted
    | ccnb =>
      match interest.details with
      | .ccnb d =>
        wanted.admits d.minSuffix.toNat d.maxSuffix.toNat name digest &&
          (d.publisherKey.isNone ||
            match content.details with
            | .ccnb c => c.publisherKey == d.publisherKey
            | _ => false)
      | _ => false
    | ndn =>
      match interest.details with
      | .ndn d => wanted.admits d.minSuffix.toNat d.maxSuffix.toNat name digest
      | _ => false
  | _, _ => false

/-- Whether two interests ask for the same: names and, where the suite has them, selectors. -/
def sameInterest (suite : Suite) (a b : Packet) : Bool :=
  match a.name?, b.name? with
  | some m, some n =>
    match suite with
    | ccnx | cisco | iot => m.same n
    | ccnb =>
      match a.details, b.details with
      | .ccnb d, .ccnb e =>
        m.same n && d.minSuffix == e.minSuffix && d.maxSuffix == e.maxSuffix &&
          d.publisherKey == e.publisherKey
      | _, _ => false
    | ndn =>
      match a.details, b.details with
      | .ndn d, .ndn e =>
        m.same n && d.minSuffix == e.minSuffix && d.maxSuffix == e.maxSuffix &&
          d.publisherKey == e.publisherKey
      | _, _ => false
  | _, _ => false

end Suite

/-- The suites that can be read, in any order. -/
structure Registry where
  suites : List Suite
  deriving Repr

namespace Registry

def empty : Registry := ⟨[]⟩

def register (r : Registry) (suite : Suite) : Registry := ⟨suite :: r.suites⟩

def knows (r : Registry) (suite : Suite) : Bool := r.suites.contains suite

/-- Reads a packet, if the suite is known. -/
def decode (r : Registry) (suite : Suite) (bytes : Bytes) : Except DecodeError (Packet × Nat) :=
  if r.knows suite then suite.decode bytes else .error .unknownSuite

end Registry

end NameRelay
