-- SUMMARY: A bounded buffer that is filled from its end towards its front.
import NameRelay.Wire.Error

/-!
# Writing from the back

A packet is written from its last byte to its first, so every length is known when it is written.
A `FrontBuffer` has room for so many bytes more in front. `Write` is an action on it: an action
that fails keeps what its earlier parts had written, as a caller can observe.
-/

namespace NameRelay

/-- Bytes written so far and the room left in front of them. -/
structure FrontBuffer where
  bytes : Bytes
  room : Nat
  deriving DecidableEq, Repr

/-- The longest packet a relay handles. -/
def maxPacketSize : Nat := 8096

namespace FrontBuffer

def empty (capacity : Nat) : FrontBuffer := ⟨[], capacity⟩

/-- The number of bytes the buffer holds when it is full. -/
def capacity (b : FrontBuffer) : Nat := b.bytes.length + b.room

end FrontBuffer

/-- An action that writes in front of a buffer. -/
abbrev Write (α : Type) := ExceptT EncodeError (StateM FrontBuffer) α

namespace Write

/-- Writes all of `bs` in front, or nothing if it does not fit. -/
def bytes (bs : Bytes) : Write Unit := do
  let b ← get
  if bs.length ≤ b.room then
    set (FrontBuffer.mk (bs ++ b.bytes) (b.room - bs.length))
  else
    throw .bufferTooShort

/-- Runs an action and returns the number of bytes that it wrote. -/
def measured (action : Write Unit) : Write Nat := do
  let before := (← get).room
  action
  return before - (← get).room

def byte (b : UInt8) : Write Unit := bytes [b]

/-- A 16-bit number. -/
def word16 (n : Nat) : Write Unit := bytes (bigEndian 2 n)

/-- A 32-bit number. -/
def word32 (n : Nat) : Write Unit := bytes (bigEndian 4 n)

/-- A length that has to fit a 16-bit field. -/
def length16 (n : Nat) : Write Unit :=
  if n < 0x10000 then word16 n else throw .valueTooLong

/-- A 16-bit type and, behind it, a 16-bit length. -/
def head16 (type length : Nat) : Write Unit := do
  length16 length
  word16 type

/-- A number of variable length: itself if below 253, otherwise the announcement 253, 254 or 255
    in front of two, four or eight bytes. -/
def varNumber (n : Nat) : Write Unit :=
  if n < 253 then byte (UInt8.ofNat n)
  else if n < 0x10000 then do
    word16 n
    byte 253
  else if n < 0x100000000 then do
    word32 n
    byte 254
  else do
    bytes (bigEndian 8 n)
    byte 255

/-- A number without leading zero bytes. -/
def minimal (n : Nat) : Write Unit := bytes (minimalBigEndian n)

/-- A number in the narrowest of one, two, four and eight bytes. -/
def nonNegative (n : Nat) : Write Unit :=
  if n < 0x100 then byte (UInt8.ofNat n)
  else if n < 0x10000 then word16 n
  else if n < 0x100000000 then word32 n
  else bytes (bigEndian 8 n)

/-- Runs an action on an empty buffer and returns all that it wrote. -/
def toBytes (capacity : Nat) (action : Write Unit) : Except EncodeError Bytes :=
  let (outcome, b) := action.run.run (FrontBuffer.empty capacity)
  outcome.map fun _ => b.bytes

end Write

end NameRelay
