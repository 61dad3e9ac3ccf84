-- SUMMARY: Encoding switches, and guessing a suite from the first bytes of a packet.
import NameRelay.Wire.Cursor
import NameRelay.Wire.FrontBuffer

/-!
# Recognising a suite

A packet may follow an encoding switch, which names its suite outright. Without a switch the suite
is guessed from the first bytes: three suites begin in ways that never coincide, the other two
cannot be guessed and need the switch.
-/

namespace NameRelay

namespace Switch

/-- The byte that opens an encoding switch. -/
def mark : UInt8 := 0x80

/-- Reads the encoding switch at the front of `bytes`: the suite it names and its length. None if
    the bytes do not begin with the mark. -/
def read? (bytes : Bytes) : Except DecodeError (Option (Suite × Nat)) :=
  if bytes.head? = some mark then do
    let (_, c) ← (Cursor.ofBytes bytes).byte
    let (code, c) ← c.varNumber
    match Suite.ofSwitchCode? code with
    | some suite => return some (suite, c.pos)
    | none => throw .unknownSuite
  else
    return none

/-- A switch is never empty. -/
theorem read?_pos {bytes : Bytes} {suite : Suite} {length : Nat}
    (h : read? bytes = .ok (some (suite, length))) : 0 < length := by
  unfold read? at h
  split at h
  · cases hb : (Cursor.ofBytes bytes).byte with
    | error e => simp [hb, bind, Except.bind] at h
    | ok first =>
      obtain ⟨b, c⟩ := first
      cases hv : c.varNumber with
      | error e => simp [hb, hv, bind, Except.bind] at h
      | ok number =>
        obtain ⟨code, c'⟩ := number
        have hpos := Cursor.varNumber_pos hv
        simp only [hb, hv, bind, Except.bind] at h
        split at h
        · simp only [pure, Except.pure, Except.ok.injEq, Option.some.injEq, Prod.mk.injEq] at h
          omega
        · simp [throw, throwThe, MonadExceptOf.throw] at h
  · simp [pure, Except.pure] at h

/-- The bytes without an encoding switch in front. One that cannot be read stays. -/
def dropFrom (bytes : Bytes) : Bytes :=
  match read? bytes with
  | .ok (some (_, length)) => bytes.drop length
  | _ => bytes

/-- The switch in front of packets of the suite. Every code fits one byte. -/
def header (suite : Suite) : Bytes := [mark, UInt8.ofNat suite.switchCode]

/-- Writes the switch of the suite, the code before the mark. -/
def write (suite : Suite) : Write Unit := do
  Write.varNumber suite.switchCode
  Write.byte mark

end Switch

/-- Guesses the suite of a packet that follows no switch. CCNB opens with one of two fixed heads,
    CCNx with its version, a packet type and a header length of at least eight, NDN with one of
    three outer types. -/
def Suite.sniff? : Bytes → Option Suite
  | [] => none
  | first :: rest =>
    if first = 0x05 ∨ first = 0x06 ∨ first = 0x64 then some .ndn
    else match rest with
      | [] => none
      | second :: more =>
        if (first = 0x01 ∧ second = 0xd2) ∨ (first = 0x04 ∧ second = 0x82) then some .ccnb
        else if first = 0x01 ∧ second ≤ 3 ∧ (more[5]?.any (8 ≤ ·)) then some .ccnx
        else none

end NameRelay
