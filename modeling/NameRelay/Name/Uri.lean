-- SUMMARY: Names as text: `/a/b%2Fc`.
import NameRelay.Name.Basic

/-!
# Names as text

Each component is written behind a slash. A byte stands for itself if it is a letter, a digit or
one of `.`, `_`, `~` and `-`; any other is a percent sign and two hexadecimal digits. The name
without components is a single slash. In the suites that frame components, a chunk component is
written as its number.

Reading takes any bytes between slashes, undoes the percent escapes and drops empty components.
-/

namespace NameRelay

namespace Uri

/-- Letters, digits and four marks are written as they are. -/
def isPlain (b : UInt8) : Bool :=
  let c := Char.ofNat b.toNat
  c.isAlphanum || c == '.' || c == '_' || c == '~' || c == '-'

/-- A hexadecimal digit, in upper case. -/
def hexUpper (n : Nat) : Char := (Nat.digitChar n).toUpper

/-- One byte as text. -/
def escapeByte (b : UInt8) : List Char :=
  if isPlain b then [Char.ofNat b.toNat]
  else ['%', hexUpper (b.toNat / 16), hexUpper (b.toNat % 16)]

/-- A component value as text. -/
def escape (value : Bytes) : List Char := value.flatMap escapeByte

/-- The value of a hexadecimal digit in either case. -/
def hexValue? (b : UInt8) : Option UInt8 :=
  if 0x30 ≤ b ∧ b ≤ 0x39 then some (b - 0x30)
  else if 0x61 ≤ b ∧ b ≤ 0x66 then some (b - 0x61 + 10)
  else if 0x41 ≤ b ∧ b ≤ 0x46 then some (b - 0x41 + 10)
  else none

/-- Undoes the percent escapes of one component. -/
def unescape : Bytes → Except NameError Bytes
  | [] => .ok []
  | b :: rest =>
    if b = 0x25 then
      match rest with
      | hi :: lo :: rest =>
        match hexValue? hi, hexValue? lo with
        | some hi, some lo => (unescape rest).map ((hi * 16 + lo) :: ·)
        | _, _ => .error .invalidEscape
      | _ => .error .invalidEscape
    else
      (unescape rest).map (b :: ·)

/-- The byte that separates components. -/
def slash : UInt8 := 0x2f

/-- The bytes between slashes, empty ones included: always at least one piece. -/
def pieces : Bytes → List Bytes
  | [] => [[]]
  | b :: rest =>
    if b = slash then [] :: pieces rest
    else match pieces rest with
      | [] => [[b]]
      | piece :: more => (b :: piece) :: more

end Uri

namespace Name

/-- The text of one component. A chunk component of the suites that frame components is written as
    `chunk=` and its number. -/
def componentText (suite : Suite) (wire : Bytes) : List Char :=
  match suite.framesComponents, Component.chunk? suite wire with
  | true, some chunk => "chunk=".toList ++ (Nat.repr chunk.toNat).toList
  | _, _ => Uri.escape (Component.value suite wire)

/-- The name as text. -/
def toUri (name : Name) : String :=
  if name.components.isEmpty then "/"
  else String.ofList (name.components.flatMap fun wire => '/' :: componentText name.suite wire)

/-- Reads a name: the first fault in the text wins. -/
def ofUri (suite : Suite) (text : String) : Except NameError Name :=
  let segments := (Uri.pieces text.toUTF8.data.toList).filter (!·.isEmpty)
  segments.foldlM (fun name segment => do name.push (← Uri.unescape segment)) (root suite)

end Name

end NameRelay
