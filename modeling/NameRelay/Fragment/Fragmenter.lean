-- SUMMARY: Splitting packets that are longer than a link carries.
import NameRelay.Codec

/-!
# Fragmenters

A link may carry only so many bytes at once. A fragmenter cuts a longer packet into pieces that
leave room for the framing of their suite, and numbers the fragments on from packet to packet.
-/

namespace NameRelay

namespace FragmentPosition

/-- The position of a fragment that opens its packet, or not, and closes it, or not. -/
def ofEnds (opens closes : Bool) : FragmentPosition :=
  match opens, closes with
  | true, true => single
  | true, false => first
  | false, true => last
  | false, false => middle

end FragmentPosition

/-- The outgoing side of a link. -/
structure Fragmenter where
  /-- The most bytes the link carries; none if there is no limit. -/
  mtu : Option Nat
  /-- The number of the next fragment. -/
  next : UInt16
  deriving DecidableEq, Repr

namespace Fragmenter

/-- The fragmenter of a link with this limit; zero means that there is none. -/
def ofMtu (mtu : Nat) : Fragmenter := ⟨if mtu = 0 then none else some mtu, 0⟩

/-- The sequence number `n` places further on. -/
def seqnoAfter (seqno : UInt16) (n : Nat) : UInt16 :=
  UInt16.ofNat ((seqno.toNat + n) % FragmentHeader.seqnoModulus)

/-- The headers for so many fragments, numbered on from `seqno`. -/
def headers (seqno : UInt16) (count : Nat) : List FragmentHeader :=
  (List.range count).map fun i =>
    ⟨.ofEnds (i == 0) (i + 1 == count), seqnoAfter seqno i⟩

/-- The fragments of a packet and the fragmenter behind them. No fragments mean that the packet
    goes out whole: it fits, the link has no limit, or the suite has no fragments. A fragment that
    cannot be written has used up its number. -/
def fragment (f : Fragmenter) (suite : Suite) (bytes : Bytes) :
    Except EncodeError (Option (List Bytes)) × Fragmenter :=
  match f.mtu, suite.fragmentOverhead? with
  | some mtu, some overhead =>
    if bytes.length ≤ mtu then (.ok none, f)
    else if mtu ≤ overhead then (.error .bufferTooShort, f)
    else
      let pieces := Bytes.pieces (mtu - overhead - 1) bytes
      let outcomes := (headers f.next pieces.length).zipWith suite.encodeFragment pieces
      let written := (outcomes.takeWhile Except.isOk).length
      (outcomes.mapM id |>.map some,
        { f with next := seqnoAfter f.next (min (written + 1) pieces.length) })
  | _, _ => (.ok none, f)

end Fragmenter

end NameRelay
