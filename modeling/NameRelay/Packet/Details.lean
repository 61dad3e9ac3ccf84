-- SUMMARY: The fields of a packet that only one suite has, and what a new packet may carry.
import NameRelay.Name.Basic

/-!
# Details

Besides its name and its content, a packet carries fields that only its suite knows. A field that
is missing on the wire has the value given here as the default.
-/

namespace NameRelay

structure CcnbDetails where
  minSuffix : UInt64 := 0
  maxSuffix : UInt64 := 64
  /-- How far the interest may travel; none if the packet states it in an invalid way. -/
  scope : Option UInt8 := some 3
  answerOriginKind : UInt32 := 3
  nonce : Option Bytes := none
  /-- The digest of the publisher's key that content has to carry. -/
  publisherKey : Option Bytes := none
  finalBlock : Option UInt32 := none
  deriving DecidableEq, Repr, Inhabited

structure CcnxDetails where
  hopLimit : UInt8
  endChunk : Option UInt32 := none
  deriving DecidableEq, Repr, Inhabited

structure CiscoDetails where
  hopLimit : UInt8
  finalSegment : Option UInt32 := none
  deriving DecidableEq, Repr, Inhabited

structure IotDetails where
  ttl : Option UInt8 := none
  /-- Where the time to live stands in the packet. -/
  ttlOffset : Nat := 0
  deriving DecidableEq, Repr, Inhabited

structure NdnDetails where
  minSuffix : UInt64 := 0
  maxSuffix : UInt64 := 64
  scope : UInt64 := 3
  mustBeFresh : Bool := false
  nonce : Option Bytes := none
  /-- The locator of the publisher's key. -/
  publisherKey : Option Bytes := none
  lifetime : Option UInt64 := none
  contentType : Option UInt64 := none
  /-- For how many milliseconds the content stays fresh. -/
  freshness : Option UInt64 := none
  finalBlock : Option UInt32 := none
  deriving DecidableEq, Repr, Inhabited

/-- The fields that only one suite has. -/
inductive Details where
  | ccnb (d : CcnbDetails)
  | ccnx (d : CcnxDetails)
  | cisco (d : CiscoDetails)
  | iot (d : IotDetails)
  | ndn (d : NdnDetails)
  deriving DecidableEq, Repr

namespace Details

def suite : Details → Suite
  | ccnb _ => .ccnb
  | ccnx _ => .ccnx
  | cisco _ => .cisco
  | iot _ => .iot
  | ndn _ => .ndn

def nonce : Details → Option Bytes
  | ccnb d => d.nonce
  | ndn d => d.nonce
  | _ => none

/-- The number of the last chunk, as far as the content says. -/
def finalBlock : Details → Option UInt32
  | ccnb d => d.finalBlock
  | ccnx d => d.endChunk
  | cisco d => d.finalSegment
  | ndn d => d.finalBlock
  | iot _ => none

/-- Whether stale content is refused. -/
def mustBeFresh : Details → Bool
  | ndn d => d.mustBeFresh
  | _ => false

/-- For how many milliseconds after its arrival content stays fresh. -/
def freshness : Details → Option UInt64
  | ndn d => d.freshness
  | _ => none

/-- The details with another hop limit, of a packet that can be handed on only so often. -/
def withHopLimit (details : Details) (limit : UInt8) : Details :=
  match details with
  | ccnx d => ccnx { d with hopLimit := limit }
  | iot d => iot { d with ttl := some limit }
  | other => other

end Details

/-- What a new interest may carry; each suite writes the fields it has. -/
structure InterestOptions where
  /-- Four bytes. -/
  nonce : Option Bytes := none
  scope : Option UInt8 := none
  minSuffix : Option UInt64 := none
  maxSuffix : Option UInt64 := none
  mustBeFresh : Bool := false
  lifetime : Option UInt64 := none
  hopLimit : Option UInt8 := none
  publisherKey : Option Bytes := none
  deriving DecidableEq, Repr, Inhabited

/-- What new content may carry besides its payload. -/
structure ContentOptions where
  finalBlock : Option UInt32 := none
  freshness : Option UInt64 := none
  hopLimit : Option UInt8 := none
  deriving DecidableEq, Repr, Inhabited

end NameRelay
