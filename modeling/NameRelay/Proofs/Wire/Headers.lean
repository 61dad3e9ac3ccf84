-- SUMMARY: Encoding switches and fixed headers read back as what was written.
import NameRelay.Proofs.Wire.Elements
import NameRelay.Wire.FixedHeader
import NameRelay.Wire.Switch

/-!
# Switches and fixed headers

What stands in front of the elements of a packet: the encoding switch of two suites, and the eight
bytes that two suites open a packet with.
-/

namespace NameRelay

/-! ## Encoding switches -/

namespace Switch

theorem puts_write (suite : Suite) : Write.Puts (write suite) () (header suite) True := by
  have hcode : varNumberBytes suite.switchCode = [UInt8.ofNat suite.switchCode] := by
    cases suite <;> rfl
  refine ((Write.puts_varNumber suite.switchCode).andThen (Write.puts_byte mark)).congr ?_ ?_
  · rw [hcode]
    rfl
  · exact and_self_iff

theorem read?_header (suite : Suite) (rest : Bytes) :
    read? (header suite ++ rest) = .ok (some (suite, 2)) := by
  cases suite <;> rfl

/-- A switch is dropped from in front of a packet. -/
theorem dropFrom_header (suite : Suite) (rest : Bytes) :
    dropFrom (header suite ++ rest) = rest := by
  rw [dropFrom, read?_header]
  rfl

theorem read?_of_head? {bytes : Bytes} (h : bytes.head? ≠ some mark) : read? bytes = .ok none := by
  rw [read?, if_neg h]
  rfl

/-- A packet without a switch stays as it is. -/
theorem dropFrom_of_head? {bytes : Bytes} (h : bytes.head? ≠ some mark) : dropFrom bytes = bytes := by
  rw [dropFrom, read?_of_head? h]

end Switch

/-! ## Fixed headers -/

namespace FixedHeader

/-- The bytes of a header in front of so many bytes. -/
def bytes (packetType hopLimit : UInt8) (extra inner : Nat) : Bytes :=
  [version, packetType] ++ bigEndian 2 (inner + size) ++ [hopLimit] ++ bigEndian 2 extra ++
    [UInt8.ofNat size]

@[simp] theorem length_bytes (packetType hopLimit : UInt8) (extra inner : Nat) :
    (bytes packetType hopLimit extra inner).length = size := by
  simp [bytes, size]

theorem puts_write (packetType hopLimit : UInt8) (extra inner : Nat) :
    Write.Puts (write packetType hopLimit extra inner) () (bytes packetType hopLimit extra inner)
      (inner + size < 0x10000) := by
  have hfields := (Write.puts_byte (UInt8.ofNat size)).andThen <|
    (Write.puts_word16 extra).andThen <| (Write.puts_byte hopLimit).andThen <|
      (Write.puts_length16 (inner + size)).andThen <|
        (Write.puts_byte packetType).andThen (Write.puts_byte version)
  refine hfields.congr ?_ ?_
  · simp [bytes]
  · simp

/-- Bytes behind their header. -/
def packet (packetType hopLimit : UInt8) (extra : Nat) (inner : Bytes) : Bytes :=
  bytes packetType hopLimit extra inner.length ++ inner

theorem length_packet (packetType hopLimit : UInt8) (extra : Nat) (inner : Bytes) :
    (packet packetType hopLimit extra inner).length = inner.length + size := by
  rw [packet, List.length_append, length_bytes, Nat.add_comm]

theorem puts_packet (packetType hopLimit : UInt8) (extra : Nat) {action : Write Unit} {inner : Bytes}
    {p : Prop} (h : Write.Puts action () inner p) :
    Write.Puts (do write packetType hopLimit extra (← Write.measured action)) ()
      (packet packetType hopLimit extra inner) (p ∧ inner.length + size < 0x10000) :=
  h.measured.bind (puts_write packetType hopLimit extra inner.length)

/-- A header that was written reads back. -/
theorem read_packet (badVersion badLength : Malformation) (packetType hopLimit : UInt8) {extra : Nat}
    {inner : Bytes} (hextra : extra < 0x10000) (hlength : inner.length + size < 0x10000) :
    read badVersion badLength (packet packetType hopLimit extra inner) =
      .ok ⟨packetType, inner.length + size, hopLimit, extra, size⟩ := by
  have hsize : (UInt8.ofNat size).toNat = size := rfl
  have hlow : ¬(size < size ∨ inner.length + size < size) := by omega
  have hlength16 := word16_bigEndian hlength
  have hextra16 := word16_bigEndian hextra
  simp only [read, packet, bytes, Cursor.ofBytes, List.append_assoc, List.cons_append,
    List.nil_append, Cursor.byte, bind, Except.bind, ne_eq, not_true_eq_false, if_false, pure,
    Except.pure, hlength16, hextra16, hsize, hlow]
  apply if_neg
  simp only [List.length_cons, List.length_append, length_bigEndian, size]
  omega

/-- A packet is as long as its header says. -/
theorem take_packet (packetType hopLimit : UInt8) (extra : Nat) (inner : Bytes) :
    (packet packetType hopLimit extra inner).take (inner.length + size) =
      packet packetType hopLimit extra inner :=
  List.take_of_length_le (Nat.le_of_eq (length_packet packetType hopLimit extra inner))

theorem body_packet (packetType hopLimit : UInt8) (extra : Nat) (inner : Bytes) {h : FixedHeader}
    (hsize : h.headerLength = size) :
    h.body (packet packetType hopLimit extra inner) = ⟨size, inner⟩ := by
  rw [body, packet, hsize, List.drop_left' (length_bytes packetType hopLimit extra inner.length)]

/-- What is in its place behind the header is in its place in the packet. -/
theorem in_packet {c : Cursor} {inner : Bytes} (h : c.In inner) (packetType hopLimit : UInt8)
    (extra : Nat) : (⟨size + c.pos, c.rest⟩ : Cursor).In (packet packetType hopLimit extra inner) := by
  have hbehind := h.behind (bytes packetType hopLimit extra inner.length)
  rwa [length_bytes] at hbehind

end FixedHeader

end NameRelay
