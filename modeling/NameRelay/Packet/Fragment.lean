-- SUMMARY: The header of a fragment: its place in the packet and its sequence number.
import NameRelay.Bytes

/-!
# Fragment headers

A fragment says whether it opens and whether it closes its packet, and carries a sequence number.
Both stand in one 16-bit word: the position in the two highest bits, the number in the other
fourteen.
-/

namespace NameRelay

/-- The place of a fragment in its packet. -/
inductive FragmentPosition where
  | middle
  | first
  | last
  | single
  deriving DecidableEq, Repr

namespace FragmentPosition

/-- The position from its two bits; higher bits mean nothing. -/
def ofBits (n : Nat) : FragmentPosition :=
  match n.testBit 1, n.testBit 0 with
  | false, false => middle
  | false, true => first
  | true, false => last
  | true, true => single

def bits : FragmentPosition → Nat
  | middle => 0
  | first => 1
  | last => 2
  | single => 3

def name : FragmentPosition → String
  | middle => "Middle"
  | first => "First"
  | last => "Last"
  | single => "Single"

/-- Whether the fragment opens its packet. -/
def opens : FragmentPosition → Bool
  | first | single => true
  | _ => false

/-- Whether the fragment closes its packet. -/
def closes : FragmentPosition → Bool
  | last | single => true
  | _ => false

end FragmentPosition

/-- A position and a sequence number. -/
structure FragmentHeader where
  position : FragmentPosition
  seqno : UInt16
  deriving DecidableEq, Repr

namespace FragmentHeader

/-- Sequence numbers count modulo this. -/
def seqnoModulus : Nat := 0x4000

/-- Takes a word apart. -/
def ofWord (word : Nat) : FragmentHeader :=
  ⟨.ofBits (word / seqnoModulus), UInt16.ofNat (word % seqnoModulus)⟩

/-- The word of a header; a sequence number is cut to its fourteen low bits. -/
def word (h : FragmentHeader) : Nat :=
  h.position.bits * seqnoModulus + h.seqno.toNat % seqnoModulus

end FragmentHeader

end NameRelay
