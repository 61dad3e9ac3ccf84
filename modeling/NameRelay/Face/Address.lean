-- SUMMARY: Where a neighbour is: the local application, a link, a socket or a path.
import NameRelay.Face.SocketAddress

/-!
# Face addresses

A neighbour is the local application, or it is behind a link-layer address, a socket address or a
path. Reading accepts what printing gives, and tries the forms in this order: the word for the
application, a path behind its mark, a socket address, six bytes with colons between them.
-/

namespace NameRelay

inductive FaceAddress where
  /-- The local application. -/
  | application
  /-- Six bytes of a link-layer address. -/
  | link (mac : List UInt8)
  | socket (address : SocketAddress)
  | path (name : String)
  deriving DecidableEq, Repr

namespace FaceAddress

/-- What stands in front of a path. -/
def pathMark : String := "unix:"

/-- One byte of a link-layer address: two characters that are digits, or a plus and a digit. -/
def macByte? (part : List Char) : Option UInt8 :=
  match part with
  | [hi, lo] => do
    let low ← SocketAddress.digitValue? lo
    let high ← if hi = '+' then some 0 else SocketAddress.digitValue? hi
    return UInt8.ofNat (high * 16 + low)
  | _ => none

/-- Six bytes with colons between them. -/
def mac? (text : String) : Option (List UInt8) :=
  let parts := text.toList.splitOn ':'
  if parts.length = 6 then parts.mapM macByte? else none

/-- Reads an address. -/
def parse? (text : String) : Option FaceAddress :=
  if text = "local" then some application
  else if pathMark.toList.isPrefixOf text.toList then
    some (path (String.ofList (text.toList.drop pathMark.length)))
  else match SocketAddress.parse? text with
    | some address => some (socket address)
    | none => (mac? text).map link

/-- What is said of a text that is no address. -/
def parseError : String := "unrecognised face address"

def text : FaceAddress → String
  | application => "local"
  | link mac => ":".intercalate (mac.map hexByte)
  | socket address => address.text
  | path name => pathMark ++ name

/-- The word for the form of an address. -/
def kind : FaceAddress → String
  | application => "Local"
  | link _ => "Link"
  | socket (.v4 _ _) => "Ipv4"
  | socket (.v6 _ _ _) => "Ipv6"
  | path _ => "Unix"

/-- The word for a text that is no address. -/
def parseErrorKind : String := "BadFaceAddress"

def socket? : FaceAddress → Option SocketAddress
  | socket address => some address
  | _ => none

end FaceAddress

end NameRelay
