-- SUMMARY: Socket addresses as text: `10.0.0.1:80` and `[fe80::1%5]:80`.
import NameRelay.Bytes

/-!
# Socket addresses

A socket address is an IPv4 address with a port, or an IPv6 address in brackets with a port and
perhaps a zone. Reading takes the whole text or fails. IPv6 groups may be left out once, where
zeros stand, and the last two may be written as an IPv4 address.

An address is printed in its canonical form: the longest run of at least two zero groups is left
out, the first of several, and an IPv4 address mapped into IPv6 is written with dots.
-/

namespace NameRelay

inductive SocketAddress where
  | v4 (octets : List UInt8) (port : UInt16)
  /-- Eight groups, a zone that is zero if there is none, and a port. -/
  | v6 (groups : List UInt16) (zone : UInt32) (port : UInt16)
  deriving DecidableEq, Repr

namespace SocketAddress

-- ---------------------------------------------------------------------------
-- Reading
-- ---------------------------------------------------------------------------

/-- The value of a digit in either case. -/
def digitValue? (c : Char) : Option Nat :=
  if '0' ≤ c ∧ c ≤ '9' then some (c.toNat - '0'.toNat)
  else if 'a' ≤ c ∧ c ≤ 'f' then some (c.toNat - 'a'.toNat + 10)
  else if 'A' ≤ c ∧ c ≤ 'F' then some (c.toNat - 'A'.toNat + 10)
  else none

/-- The value of a digit of this radix. -/
def digit? (radix : Nat) (c : Char) : Option Nat := (digitValue? c).filter (· < radix)

/-- How a number is written and how large it may be. -/
structure NumberFormat where
  radix : Nat
  maxDigits : Option Nat
  /-- Whether a number of several digits may begin with a zero. -/
  leadingZero : Bool
  max : Nat

/-- Takes all digits there are and checks the number that they write. -/
def number? (f : NumberFormat) (cs : List Char) : Option (Nat × List Char) :=
  let digits := (cs.takeWhile fun c => (digit? f.radix c).isSome).filterMap (digit? f.radix)
  let value := digits.foldl (fun n d => n * f.radix + d) 0
  if digits.isEmpty then none
  else if f.maxDigits.any (· < digits.length) then none
  else if f.leadingZero = false ∧ digits.head? = some 0 ∧ 1 < digits.length then none
  else if f.max < value then none
  else some (value, cs.drop digits.length)

/-- Takes one given character. -/
def char? (c : Char) : List Char → Option (List Char)
  | d :: rest => if c = d then some rest else none
  | [] => none

def octetFormat : NumberFormat := ⟨10, some 3, false, 0xff⟩
def groupFormat : NumberFormat := ⟨16, some 4, true, 0xffff⟩
def portFormat : NumberFormat := ⟨10, none, true, 0xffff⟩
def zoneFormat : NumberFormat := ⟨10, none, true, 0xffffffff⟩

/-- Takes four numbers with dots between them. -/
def octets? (cs : List Char) : Option (List UInt8 × List Char) := do
  let (a, cs) ← number? octetFormat cs
  let (b, cs) ← number? octetFormat (← char? '.' cs)
  let (c, cs) ← number? octetFormat (← char? '.' cs)
  let (d, cs) ← number? octetFormat (← char? '.' cs)
  return ([UInt8.ofNat a, UInt8.ofNat b, UInt8.ofNat c, UInt8.ofNat d], cs)

/-- The two groups of an IPv4 address. -/
def groupsOfOctets (octets : List UInt8) : List UInt16 :=
  match octets with
  | [a, b, c, d] =>
    [UInt16.ofNat (a.toNat * 256 + b.toNat), UInt16.ofNat (c.toNat * 256 + d.toNat)]
  | _ => []

/-- Takes the colon in front of every group but the first. -/
def separator? (first : Bool) (cs : List Char) : Option (List Char) :=
  if first then some cs else char? ':' cs

/-- Takes up to so many groups, with colons between them. The flag says that the last two were
    written as an IPv4 address, which ends the groups. -/
def groups (first : Bool) : Nat → List Char → List UInt16 × Bool × List Char
  | 0, cs => ([], false, cs)
  | room + 1, cs =>
    let dotted := if room = 0 then none else (separator? first cs).bind octets?
    match dotted with
    | some (octets, rest) => (groupsOfOctets octets, true, rest)
    | none =>
      match (separator? first cs).bind (number? groupFormat) with
      | some (group, rest) =>
        let (more, isDotted, rest) := groups false room rest
        (UInt16.ofNat group :: more, isDotted, rest)
      | none => ([], false, cs)

/-- The number of groups of an IPv6 address. -/
def groupCount : Nat := 8

/-- Takes an IPv6 address. A double colon stands for at least one zero group, and nothing dotted may
    stand in front of it. -/
def groups? (cs : List Char) : Option (List UInt16 × List Char) := do
  let (front, dotted, rest) := groups true groupCount cs
  if front.length = groupCount then
    return (front, rest)
  else if dotted then
    none
  else
    let rest ← char? ':' rest
    let rest ← char? ':' rest
    let (back, _, rest) := groups true (groupCount - (front.length + 1)) rest
    let zeros := List.replicate (groupCount - front.length - back.length) 0
    return (front ++ zeros ++ back, rest)

def port? (cs : List Char) : Option (UInt16 × List Char) := do
  let (n, cs) ← number? portFormat (← char? ':' cs)
  return (UInt16.ofNat n, cs)

/-- Takes the zone behind an IPv6 address; zero if there is none. -/
def zone (cs : List Char) : UInt32 × List Char :=
  match (char? '%' cs).bind (number? zoneFormat) with
  | some (n, rest) => (UInt32.ofNat n, rest)
  | none => (0, cs)

def v4? (cs : List Char) : Option (SocketAddress × List Char) := do
  let (octets, cs) ← octets? cs
  let (port, cs) ← port? cs
  return (v4 octets port, cs)

def v6? (cs : List Char) : Option (SocketAddress × List Char) := do
  let (groups, cs) ← groups? (← char? '[' cs)
  let (zone, cs) := zone cs
  let (port, cs) ← port? (← char? ']' cs)
  return (v6 groups zone port, cs)

/-- Reads a socket address that takes all of a text. -/
def parse? (text : String) : Option SocketAddress :=
  match v4? text.toList <|> v6? text.toList with
  | some (address, []) => some address
  | _ => none

-- ---------------------------------------------------------------------------
-- Printing
-- ---------------------------------------------------------------------------

def octetsText (octets : List UInt8) : String :=
  ".".intercalate (octets.map fun o => toString o.toNat)

def groupsText (groups : List UInt16) : String :=
  ":".intercalate (groups.map fun g => String.ofList (Nat.toDigits 16 g.toNat))

/-- Where the longest run of zero groups starts and how long it is; the first of several. -/
def longestZeros (groups : List UInt16) : Nat × Nat :=
  (List.range groups.length).foldl (fun best i =>
    let run := ((groups.drop i).takeWhile (· = 0)).length
    if best.2 < run then (i, run) else best) (0, 0)

/-- An IPv6 address without its zone. -/
def ipv6Text (groups : List UInt16) : String :=
  match groups with
  | [0, 0, 0, 0, 0, 0xffff, hi, lo] =>
    "::ffff:" ++ octetsText [UInt8.ofNat (hi.toNat / 256), UInt8.ofNat hi.toNat,
      UInt8.ofNat (lo.toNat / 256), UInt8.ofNat lo.toNat]
  | _ =>
    let (start, run) := longestZeros groups
    if 1 < run then groupsText (groups.take start) ++ "::" ++ groupsText (groups.drop (start + run))
    else groupsText groups

def text : SocketAddress → String
  | v4 octets port => octetsText octets ++ ":" ++ toString port.toNat
  | v6 groups zone port =>
    let zoneText := if zone = 0 then "" else "%" ++ toString zone.toNat
    "[" ++ ipv6Text groups ++ zoneText ++ "]:" ++ toString port.toNat

end SocketAddress

end NameRelay
