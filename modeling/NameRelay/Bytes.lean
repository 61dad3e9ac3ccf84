-- SUMMARY: Byte strings and the big-endian numbers written in them.

/-!
# Byte strings

Everything that travels is a list of bytes. Numbers stand in it with the most significant byte
first: at a fixed width (`bigEndian`), or without leading zero bytes (`minimalBigEndian`).
`Bytes.value` reads both back.
-/

namespace NameRelay

/-- A byte string as it travels on the wire. -/
abbrev Bytes := List UInt8

/-- The largest number of a 64-bit word. -/
def word64Max : Nat := 0xffffffffffffffff

/-- Multiplication that stops at the largest 64-bit word, for numbers read from outside. -/
def saturatingMul (a b : Nat) : Nat := min (a * b) word64Max

/-- Addition that stops at the largest 64-bit word. -/
def saturatingAdd (a b : Nat) : Nat := min (a + b) word64Max

-- ---------------------------------------------------------------------------
-- Big-endian numbers
-- ---------------------------------------------------------------------------

/-- The number that `bs` writes in base 256, most significant byte first. The empty string
    writes zero. -/
def Bytes.value (bs : Bytes) : Nat := bs.foldl (fun n b => n * 256 + b.toNat) 0

/-- The `width` low bytes of `n`, most significant first. -/
def bigEndian : Nat → Nat → Bytes
  | 0, _ => []
  | width + 1, n => bigEndian width (n / 256) ++ [UInt8.ofNat n]

/-- Drops zero bytes from the front, but never the last byte. -/
def Bytes.dropLeadingZeros : Bytes → Bytes
  | 0 :: b :: rest => Bytes.dropLeadingZeros (b :: rest)
  | bs => bs

/-- The shortest big-endian form of a 64-bit word; zero is one zero byte. -/
def minimalBigEndian (n : Nat) : Bytes := (bigEndian 8 n).dropLeadingZeros

/-- The number in a field of at most eight bytes; a longer field holds no 64-bit word. -/
def Bytes.word? (bs : Bytes) : Option UInt64 :=
  if bs.length ≤ 8 then some (UInt64.ofNat bs.value) else none

/-- The number as a 32-bit word, if it fits one. -/
def word32? (n : Nat) : Option UInt32 :=
  if n < 0x100000000 then some (UInt32.ofNat n) else none

/-- Cuts bytes into pieces of `room + 1` bytes, the last of which may be shorter. -/
def Bytes.pieces (room : Nat) : Bytes → List Bytes
  | [] => []
  | b :: rest => (b :: rest.take room) :: Bytes.pieces room (rest.drop room)
termination_by bs => bs.length
decreasing_by simp only [List.length_drop, List.length_cons]; omega

@[simp] theorem length_bigEndian (width n : Nat) : (bigEndian width n).length = width := by
  induction width generalizing n with
  | zero => rfl
  | succ width ih => simp [bigEndian, ih]

-- ---------------------------------------------------------------------------
-- Hexadecimal text
-- ---------------------------------------------------------------------------

/-- The digit for a number below sixteen, in lower case. -/
def hexDigit (n : Nat) : Char := Nat.digitChar n

/-- Two hexadecimal digits for a byte, in lower case. -/
def hexByte (b : UInt8) : String :=
  String.ofList [hexDigit (b.toNat / 16), hexDigit (b.toNat % 16)]

/-- A number in hexadecimal, with the mark `0x` in front. -/
def hexNumber (n : Nat) : String := "0x" ++ String.ofList (Nat.toDigits 16 n)

end NameRelay
