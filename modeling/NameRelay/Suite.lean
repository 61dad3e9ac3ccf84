-- SUMMARY: The five wire encodings and what tells them apart.

/-!
# Suites

A relay understands five wire encodings. Each has a name, some have an alias, and each has a code
that an encoding switch carries in front of a packet.
-/

namespace NameRelay

/-- A wire encoding that the relay understands, in the order in which suites are listed. -/
inductive Suite where
  | ccnb
  | ccnx
  | cisco
  | iot
  | ndn
  deriving DecidableEq, Repr, Inhabited

namespace Suite

/-- Every suite, in order. -/
def all : List Suite := [ccnb, ccnx, cisco, iot, ndn]

/-- How many suites come before this one. -/
def rank : Suite → Nat
  | ccnb => 0
  | ccnx => 1
  | cisco => 2
  | iot => 3
  | ndn => 4

/-- The code that an encoding switch carries for the suite. -/
def switchCode : Suite → Nat
  | ccnb => 0
  | ndn => 1
  | ccnx => 2
  | iot => 3
  | cisco => 5

/-- The suite of a switch code. Code 4 is set aside for management and names no suite. -/
def ofSwitchCode? (code : Nat) : Option Suite :=
  all.find? (·.switchCode == code)

/-- The name under which the suite is printed. -/
def name : Suite → String
  | ccnb => "ccnb"
  | ccnx => "ccnx2015"
  | cisco => "cisco2015"
  | iot => "iot2014"
  | ndn => "ndn2013"

/-- A second name that is accepted but never printed. -/
def alias? : Suite → Option String
  | ccnb => none
  | ccnx => some "ccnx"
  | cisco => some "cisco"
  | iot => some "iot"
  | ndn => some "ndn"

/-- Reads a name or an alias. -/
def ofName? (text : String) : Option Suite :=
  all.find? fun s => s.name == text || s.alias? == some text

/-- Packets of these suites cannot be told from the others by their first bytes, so they always
    travel behind an encoding switch. -/
def needsSwitch : Suite → Bool
  | cisco | iot => true
  | _ => false

/-- Whether the components of a name carry a type and a length of their own. -/
def framesComponents : Suite → Bool
  | ccnx | cisco => true
  | _ => false

/-- Whether names of the suite can end in a chunk number. -/
def hasChunks : Suite → Bool
  | iot => false
  | _ => true

end Suite

end NameRelay
