-- SUMMARY: The packets in a buffer that came over an interface.
import NameRelay.Codec

/-!
# Datagrams

A buffer may hold several packets one after the other. An encoding switch in front of a packet names
the suite of everything behind it, up to the next switch; before the first switch the suite of each
packet is guessed. Reading stops at the first place that cannot be read, and the packets before it
count.
-/

namespace NameRelay

/-- Why a buffer was not read to its end. -/
inductive Obstacle where
  | badSwitch (offset : Nat) (e : DecodeError)
  | unrecognised (offset : Nat)
  /-- The bytes are no packet of the suite that they should be of. -/
  | undecodable (suite : Suite) (bytes : Bytes) (e : DecodeError)
  deriving DecidableEq, Repr

def Obstacle.message : Obstacle → String
  | badSwitch offset e => s!"Bad encoding switch at {offset}: {e.message}"
  | unrecognised offset => s!"Unrecognised bytes at {offset}, dropping the rest"
  | undecodable suite _ e => s!"Dropping undecodable {suite.name} packet: {e.message}"

/-- What is to be said where the reading ended. -/
def Obstacle.records (o : Obstacle) : List LogRecord :=
  let met := match o with
    | undecodable suite bytes _ => suite.readingRecords bytes
    | _ => []
  met ++ [⟨.debug, o.message⟩]

/-- The packets of a buffer, and what ended the reading before its end. -/
structure Datagram where
  packets : List Packet
  obstacle : Option Obstacle
  deriving Repr

namespace Datagram

/-- A buffer without anything in it. -/
def empty : Datagram := ⟨[], none⟩

/-- The datagram with a packet in front. -/
def cons (packet : Packet) (d : Datagram) : Datagram := { d with packets := packet :: d.packets }

def obstructed (o : Obstacle) : Datagram := ⟨[], some o⟩

/-- Reads a buffer from place `offset` on, where the last switch named `switched`. -/
def readFrom (switched : Option Suite) (offset : Nat) (bytes : Bytes) : Datagram :=
  if _hne : bytes = [] then empty
  else
    match _hs : Switch.read? bytes with
    | .error e => obstructed (.badSwitch offset e)
    | .ok (some (suite, length)) => readFrom (some suite) (offset + length) (bytes.drop length)
    | .ok none =>
      match switched.or (Suite.sniff? bytes) with
      | none => obstructed (.unrecognised offset)
      | some suite =>
        match suite.decode bytes with
        | .error e => obstructed (.undecodable suite bytes e)
        | .ok (packet, consumed) =>
          if _hc : consumed = 0 then empty
          else cons packet (readFrom switched (offset + consumed) (bytes.drop consumed))
termination_by bytes.length
decreasing_by
  · have := List.length_pos_iff.2 _hne
    have := Switch.read?_pos _hs
    simp only [List.length_drop]
    omega
  · have := List.length_pos_iff.2 _hne
    simp only [List.length_drop]
    omega

/-- Reads a buffer. -/
def read (bytes : Bytes) : Datagram := readFrom none 0 bytes

end Datagram

end NameRelay
