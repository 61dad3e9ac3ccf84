-- SUMMARY: Which packets a relay would take in again as they are kept.
import NameRelay.Proofs.Relay.Datagram
import NameRelay.Proofs.Wire.Headers

/-!
# Recognition

What a relay keeps of a packet is what it sends on, and the next relay has to find the suite from
these bytes alone: by the switch in front of them or by how they begin. Two suites keep their
switch. Of the others, CCNB and CCNx packets begin in one way only, and an NDN packet does if its
outer type takes one byte. A wider form is read but not recognised, so a packet with one can be
received behind a switch and not from what is sent on.
-/

namespace NameRelay

/-- What the packet at the front of a buffer is taken for: its suite, named by a switch or guessed,
    and the bytes from which it is read. -/
def Suite.recognise? (bytes : Bytes) : Option (Suite × Bytes) :=
  match Switch.read? bytes with
  | .error _ => none
  | .ok (some (suite, length)) => some (suite, bytes.drop length)
  | .ok none => (sniff? bytes).map (·, bytes)

/-! ## How packets begin -/

/-- Nothing else at the front looks like a packet. -/
theorem Suite.sniff?_eq_none {first : UInt8} (h : first ∉ [0x01, 0x04, 0x05, 0x06, 0x64])
    (rest : Bytes) : sniff? (first :: rest) = none := by
  simp only [List.mem_cons, List.not_mem_nil, or_false, not_or] at h
  obtain ⟨h1, h4, h5, h6, h64⟩ := h
  cases rest <;> simp [sniff?, h1, h4, h5, h6, h64]

namespace Ccnb

theorem le_of_headerFrom {fuel number n kind : Nat} {b : UInt8} {c next : Cursor}
    (h : headerFrom fuel number b c = .ok (.element n kind, next)) : number * 16 ≤ n := by
  induction fuel generalizing number b c with
  | zero => cases h
  | succ fuel ih =>
    rw [headerFrom] at h
    split at h
    · cases h
      exact Nat.le_add_right _ _
    · split at h
      · cases h
      · have := ih h
        omega

/-- The header of a number that needs two bytes cannot be longer. -/
theorem eq_bytes_of_token {bytes : Bytes} {number kind : Nat} {next : Cursor}
    (h : token (.ofBytes bytes) = .ok (.element number kind, next)) (hlow : 16 ≤ number)
    (hhigh : number < 2048) :
    ∃ first second rest, bytes = first :: second :: rest ∧ first.toNat = number / 16 ∧
      second.toNat = 128 + number % 16 * 8 + kind := by
  rcases bytes with _ | ⟨first, rest⟩
  · cases h
  rw [token, Cursor.ofBytes, Cursor.byte] at h
  dsimp only at h
  split at h
  · cases h
  rename_i hfirst
  rw [maxHeaderBytes, headerFrom] at h
  split at h
  · cases h
    omega
  rcases rest with _ | ⟨second, rest⟩
  · cases h
  rw [Cursor.byte] at h
  dsimp only at h
  refine ⟨first, second, rest, rfl, ?_⟩
  rw [headerFrom] at h
  split at h
  · have := second.toNat_lt
    cases h
    omega
  · -- A third byte of the header would make the number too large.
    split at h
    · cases h
    · have hpos : first.toNat ≠ 0 := fun hzero => hfirst (UInt8.toNat_inj.1 hzero)
      have := le_of_headerFrom h
      omega

theorem sniff?_of_decode {bytes : Bytes} {p : Packet} {n : Nat} (h : decode bytes = .ok (p, n)) :
    Suite.sniff? bytes = some .ccnb := by
  rw [decode_eq] at h
  obtain ⟨⟨t, c⟩, htoken, hhead⟩ := ok_of_bind h
  obtain ⟨kind, hkind, -⟩ := ok_of_bind hhead
  cases t with
  | close => cases hkind
  | element number kind =>
    simp only [kindOf] at hkind
    split at hkind
    · rename_i htag
      obtain ⟨rfl, rfl⟩ := htag
      obtain ⟨first, second, rest, rfl, hfirst, hsecond⟩ :=
        eq_bytes_of_token htoken (by decide) (by decide)
      obtain rfl : first = 0x01 := UInt8.toNat_inj.1 hfirst
      obtain rfl : second = 0xd2 := UInt8.toNat_inj.1 hsecond
      rfl
    · split at hkind
      · rename_i htag
        obtain ⟨rfl, rfl⟩ := htag
        obtain ⟨first, second, rest, rfl, hfirst, hsecond⟩ :=
          eq_bytes_of_token htoken (by decide) (by decide)
        obtain rfl : first = 0x04 := UInt8.toNat_inj.1 hfirst
        obtain rfl : second = 0x82 := UInt8.toNat_inj.1 hsecond
        rfl
      · cases hkind

end Ccnb

namespace Ccnx

theorem packetType_le_of_messageKind? {packetType : UInt8} {elementType : Nat} {kind : MessageKind}
    (h : messageKind? packetType elementType = some kind) : packetType ≤ 3 := by
  unfold messageKind? at h
  split at h
  · rename_i hkind
    rw [hkind.1]
    decide
  · split at h
    · rename_i hkind
      rw [hkind.1]
      decide
    · split at h
      · rename_i hkind
        rw [hkind.1]
        decide
      · cases h

/-- A packet has one of the four packet types in its header. -/
theorem header_of_decode {bytes : Bytes} {p : Packet} {n : Nat} (h : decode bytes = .ok (p, n)) :
    ∃ header, FixedHeader.read .ccnxVersion .ccnxHeaderLength bytes = .ok header ∧
      header.packetType ≤ 3 := by
  obtain ⟨header, hheader, hpacket⟩ := ok_of_bind h
  obtain ⟨⟨e, next⟩, -, hrest⟩ := ok_of_bind hpacket
  refine ⟨header, hheader, ?_⟩
  dsimp only at hrest
  split at hrest
  · rename_i htype
    rw [htype.1]
    decide
  · split at hrest
    · cases hrest
    · rename_i hkind
      exact packetType_le_of_messageKind? hkind

theorem sniff?_of_decode {bytes : Bytes} {p : Packet} {n : Nat} (h : decode bytes = .ok (p, n)) :
    Suite.sniff? bytes = some .ccnx := by
  obtain ⟨header, hread, htype⟩ := header_of_decode h
  obtain ⟨packetType, l, m, hopLimit, x, y, k, rest, rfl, ⟨hsize, -, -⟩, rfl⟩ :=
    FixedHeader.eq_bytes_of_read hread
  have hlength : 8 ≤ k := hsize
  have hccnb : packetType ≠ 0xd2 := by
    rintro rfl
    exact (by decide : ¬(0xd2 : UInt8) ≤ 3) htype
  simp [Suite.sniff?, FixedHeader.version, hccnb, htype, hlength]

end Ccnx

namespace Ndn

/-- The outer type is written in a form that takes more than one byte. -/
def TypeIsWide (bytes : Bytes) : Prop := ∃ first ∈ bytes.head?, Cursor.varWidth first ≠ 0

/-- The outer type of a packet that is written in one byte is that byte. -/
theorem type_eq_of_head {first : UInt8} {rest : Bytes} {e : Tlv.Element} {next : Cursor}
    (h : Tlv.Head.flexible.element (.ofBytes (first :: rest)) = .ok (e, next))
    (hnarrow : Cursor.varWidth first = 0) : e.type = first.toNat := by
  obtain ⟨⟨⟨type, length⟩, inner⟩, hhead, hvalue⟩ := ok_of_bind h
  obtain ⟨⟨value, next⟩, -, hend⟩ := ok_of_bind hvalue
  obtain ⟨⟨type, c⟩, htype, hlength⟩ := ok_of_bind hhead
  obtain ⟨⟨length, c⟩, -, hpair⟩ := ok_of_bind hlength
  rw [Cursor.ofBytes, Cursor.varNumber, if_pos hnarrow] at htype
  cases htype
  cases hpair
  cases hend
  rfl

theorem type_of_decode {bytes : Bytes} {p : Packet} {n : Nat} (h : decode bytes = .ok (p, n)) :
    ∃ e next, Tlv.Head.flexible.element (.ofBytes bytes) = .ok (e, next) ∧
      (e.type = linkType ∨ e.type = interestType ∨ e.type = dataType) := by
  obtain ⟨⟨e, next⟩, helement, hrest⟩ := ok_of_bind h
  refine ⟨e, next, helement, ?_⟩
  dsimp only at hrest
  split at hrest
  · rename_i hlink
    exact .inl hlink
  · split at hrest
    · rename_i hmessage
      exact .inr hmessage
    · cases hrest

/-- A packet looks like one unless its outer type is wide. -/
theorem sniff?_of_decode {bytes : Bytes} {p : Packet} {n : Nat} (h : decode bytes = .ok (p, n))
    (hnarrow : ¬TypeIsWide bytes) : Suite.sniff? bytes = some .ndn := by
  obtain ⟨e, next, helement, htype⟩ := type_of_decode h
  rcases bytes with _ | ⟨first, rest⟩
  · cases helement
  have hfirst : Cursor.varWidth first = 0 :=
    Decidable.not_not.1 fun hwide => hnarrow ⟨first, rfl, hwide⟩
  rw [type_eq_of_head helement hfirst] at htype
  have hmagic : first = 0x05 ∨ first = 0x06 ∨ first = 0x64 := by
    rcases htype with hlink | hinterest | hdata
    · exact .inr (.inr (UInt8.toNat_inj.1 hlink))
    · exact .inl (UInt8.toNat_inj.1 hinterest)
    · exact .inr (.inl (UInt8.toNat_inj.1 hdata))
  simp only [Suite.sniff?, if_pos hmagic]

/-- Nothing that begins with a wide number is recognised. -/
theorem unrecognised_of_wide {bytes : Bytes} (hwide : TypeIsWide bytes) :
    Switch.read? bytes = .ok none ∧ Suite.sniff? bytes = none := by
  obtain ⟨first, hfirst, hwidth⟩ := hwide
  rcases bytes with _ | ⟨b, rest⟩
  · cases hfirst
  obtain rfl : b = first := Option.some_inj.1 hfirst
  refine ⟨Switch.read?_none_iff.2 fun hmark => ?_, Suite.sniff?_eq_none (fun hmagic => ?_) rest⟩
  · obtain rfl : b = Switch.mark := Option.some_inj.1 hmark
    exact hwidth rfl
  · simp only [List.mem_cons, List.not_mem_nil, or_false] at hmagic
    rcases hmagic with rfl | rfl | rfl | rfl | rfl <;> exact hwidth rfl

end Ndn

namespace Iot

/-- The mark of a switch would be the head of a request without a name. -/
theorem decode_mark (rest : Bytes) : decode (Switch.mark :: rest) = .error .missingName := by
  have helement : Tlv.Head.compact.element (.ofBytes (Switch.mark :: rest)) =
      .ok (⟨requestType, ⟨1, []⟩, [Switch.mark]⟩, ⟨1, rest⟩) := by
    simp [Tlv.Head.element, Tlv.Head.compact, Tlv.Head.readCompact, Cursor.ofBytes, Cursor.byte,
      Cursor.split, Cursor.remaining, Cursor.advance, Switch.mark, requestType, bind, Except.bind,
      pure, Except.pure]
  have hfields : Tlv.Head.compact.elements ⟨1, []⟩ = ⟨[], none⟩ := Tlv.Head.elements_of_isEmpty rfl
  simp only [decode, helement, hfields, bind, Except.bind]
  rfl

end Iot

namespace Suite

/-- No packet begins like a switch. -/
theorem read?_of_decode {suite : Suite} {bytes : Bytes} {p : Packet} {n : Nat}
    (h : suite.decode bytes = .ok (p, n)) : Switch.read? bytes = .ok none := by
  rw [Switch.read?_none_iff]
  intro hmark
  rcases bytes with _ | ⟨b, rest⟩
  · cases hmark
  obtain rfl : b = Switch.mark := Option.some_inj.1 hmark
  cases suite with
  | ccnb => cases (sniff?_eq_none (by decide) rest).symm.trans (Ccnb.sniff?_of_decode h)
  | ccnx => cases (sniff?_eq_none (by decide) rest).symm.trans (Ccnx.sniff?_of_decode h)
  | cisco =>
    obtain ⟨header, hheader, -⟩ := ok_of_bind h
    obtain ⟨type, l, m, hopLimit, x, y, k, rest, heq, -⟩ := FixedHeader.eq_bytes_of_read hheader
    cases heq
  | iot => cases (Iot.decode_mark rest).symm.trans h
  | ndn =>
    obtain ⟨e, next, helement, htype⟩ := Ndn.type_of_decode h
    rw [Ndn.type_eq_of_head helement rfl] at htype
    exact absurd htype (by decide)

theorem ne_nil_of_decode {suite : Suite} {bytes : Bytes} {p : Packet} {n : Nat}
    (h : suite.decode bytes = .ok (p, n)) : bytes ≠ [] := by
  rintro rfl
  have hframed := decode_framed h
  exact absurd hframed.inside (Nat.not_le_of_lt hframed.positive)

/-! ## Receiving what was kept -/

theorem recognise?_of_sniff? {suite : Suite} {bytes : Bytes} (hswitch : Switch.read? bytes = .ok none)
    (h : sniff? bytes = some suite) : recognise? bytes = some (suite, bytes) := by
  rw [recognise?, hswitch]
  exact congrArg (Option.map (·, bytes)) h

theorem recognise?_of_header (suite : Suite) (rest : Bytes) :
    recognise? (Switch.header suite ++ rest) = some (suite, rest) := by
  rw [recognise?, Switch.read?_header]
  rfl

/-- A buffer that holds just what is kept of the packet is read as the packet and nothing else. -/
structure ReceivedAgain (suite : Suite) (p : Packet) : Prop where
  recognised : ∃ rest, recognise? p.bytes = some (suite, rest) ∧
    suite.decode rest = .ok (p, rest.length)
  alone : Datagram.read p.bytes = ⟨[p], none⟩

/-- Reading a buffer begins with its recognition. -/
theorem read_of_recognise? {suite : Suite} {bytes rest : Bytes} {p : Packet}
    (h : recognise? bytes = some (suite, rest)) (hd : suite.decode rest = .ok (p, rest.length)) :
    Datagram.read bytes = ⟨[p], none⟩ := by
  have hne := ne_nil_of_decode hd
  have hread (switched : Option Suite) (offset : Nat) (hsuite : switched.or (sniff? rest) = some suite) :
      Datagram.readFrom switched offset rest = ⟨[p], none⟩ := by
    rw [Datagram.readFrom_of_packet hne (read?_of_decode hd) hsuite hd, List.drop_length,
      Datagram.readFrom]
    rfl
  rw [recognise?] at h
  split at h
  · cases h
  · rename_i found length hswitch
    cases h
    rw [Datagram.read, Datagram.readFrom_of_switch hswitch]
    exact hread _ _ rfl
  · obtain ⟨found, hsniff, heq⟩ := Option.map_eq_some_iff.1 h
    cases heq
    exact hread none 0 hsniff

theorem read_of_unrecognised {bytes : Bytes} (hne : bytes ≠ [])
    (hswitch : Switch.read? bytes = .ok none) (hsniff : sniff? bytes = none) :
    Datagram.read bytes = .obstructed (.unrecognised 0) := by
  simp only [Datagram.read, Datagram.readFrom_eq hne, hswitch, Option.none_or, hsniff]

theorem ReceivedAgain.of_recognised {suite : Suite} {p : Packet} {rest : Bytes}
    (h : recognise? p.bytes = some (suite, rest)) (hd : suite.decode rest = .ok (p, rest.length)) :
    ReceivedAgain suite p :=
  ⟨⟨rest, h, hd⟩, read_of_recognise? h hd⟩

section Kept

variable {suite : Suite} {bytes : Bytes} {p : Packet} {n : Nat}

/-- The bytes that a packet takes are the packet and nothing else. -/
theorem decode_taken (h : suite.decode bytes = .ok (p, n)) :
    suite.decode (bytes.take n) = .ok (p, (bytes.take n).length) := by
  have hagain := (decode_framed h).again []
  rwa [List.append_nil, ← congrArg (fun k => Except.ok (p, k))
    (List.length_take_of_le (decode_framed h).inside)] at hagain

/-- A packet that keeps its switch is found behind it. -/
theorem receivedAgain_of_needsSwitch (h : suite.decode bytes = .ok (p, n))
    (hneeds : suite.needsSwitch = true) : ReceivedAgain suite p := by
  have hkept := (decode_framed h).kept
  rw [keptSwitch, if_pos hneeds] at hkept
  refine .of_recognised ?_ (decode_taken h)
  rw [hkept]
  exact recognise?_of_header suite _

theorem bytes_eq_taken (h : suite.decode bytes = .ok (p, n)) (hneeds : suite.needsSwitch = false) :
    p.bytes = bytes.take n := by
  have hkept := (decode_framed h).kept
  rwa [keptSwitch, hneeds] at hkept

/-- A packet without a switch is found by how it begins. -/
theorem receivedAgain_of_sniff? (h : suite.decode bytes = .ok (p, n))
    (hneeds : suite.needsSwitch = false) (hsniff : sniff? (bytes.take n) = some suite) :
    ReceivedAgain suite p := by
  have htaken := decode_taken h
  have hrecognised := recognise?_of_sniff? (read?_of_decode htaken) hsniff
  rw [← bytes_eq_taken h hneeds] at hrecognised htaken
  exact .of_recognised hrecognised htaken

theorem typeIsWide_taken (h : suite.decode bytes = .ok (p, n)) :
    Ndn.TypeIsWide (bytes.take n) ↔ Ndn.TypeIsWide bytes := by
  have hpos := (decode_framed h).positive
  rw [Ndn.TypeIsWide, Ndn.TypeIsWide, List.head?_take, if_neg (Nat.pos_iff_ne_zero.1 hpos)]

/-- Every packet looks like one of its suite, if its suite is ever guessed and no NDN type is
    wide. -/
theorem sniff?_taken (h : suite.decode bytes = .ok (p, n)) (hneeds : suite.needsSwitch = false)
    (hnarrow : ¬(suite = .ndn ∧ Ndn.TypeIsWide bytes)) : sniff? (bytes.take n) = some suite := by
  have htaken := decode_taken h
  cases suite with
  | ccnb => exact Ccnb.sniff?_of_decode htaken
  | ccnx => exact Ccnx.sniff?_of_decode htaken
  | cisco => cases hneeds
  | iot => cases hneeds
  | ndn =>
    refine Ndn.sniff?_of_decode htaken fun hwide => hnarrow ⟨rfl, ?_⟩
    exact (typeIsWide_taken h).1 hwide

/-- A packet can be received again from what is kept of it, as the same packet and to the last byte,
    unless it is an NDN packet whose outer type is wide: that is not recognised at all. -/
theorem receivedAgain_iff (h : suite.decode bytes = .ok (p, n)) :
    (ReceivedAgain suite p ↔ ¬(suite = .ndn ∧ Ndn.TypeIsWide bytes)) ∧
      (suite = .ndn ∧ Ndn.TypeIsWide bytes →
        Datagram.read p.bytes = .obstructed (.unrecognised 0)) := by
  have hlost : suite = .ndn ∧ Ndn.TypeIsWide bytes →
      Datagram.read p.bytes = .obstructed (.unrecognised 0) := by
    rintro ⟨rfl, hwide⟩
    obtain ⟨hswitch, hsniff⟩ := Ndn.unrecognised_of_wide ((typeIsWide_taken h).2 hwide)
    rw [bytes_eq_taken h rfl]
    exact read_of_unrecognised (ne_nil_of_decode (decode_taken h)) hswitch hsniff
  refine ⟨⟨fun hagain hwide => ?_, fun hnarrow => ?_⟩, hlost⟩
  · cases hagain.alone.symm.trans (hlost hwide)
  · cases hneeds : suite.needsSwitch with
    | true => exact receivedAgain_of_needsSwitch h hneeds
    | false => exact receivedAgain_of_sniff? h hneeds (sniff?_taken h hneeds hnarrow)

end Kept

/-- An interest for `/a` behind a switch, its type in three bytes. -/
def wideInterest : Bytes := [253, 0, 5, 5, 7, 3, 8, 1, 97]

theorem wideInterest_not_receivedAgain :
    ∃ p, Suite.ndn.decode wideInterest = .ok (p, 9) ∧ Ndn.TypeIsWide wideInterest ∧
      ¬ReceivedAgain .ndn p ∧ Datagram.read p.bytes = .obstructed (.unrecognised 0) := by
  have hread : Suite.ndn.decode wideInterest =
      .ok (⟨wideInterest, .message .interest ⟨.ndn, [[97]], none, .none⟩ none, .ndn {}⟩, 9) := by
    cbv
  have hwide : Ndn.TypeIsWide wideInterest := ⟨253, rfl, by decide⟩
  obtain ⟨hiff, hlost⟩ := receivedAgain_iff hread
  exact ⟨_, hread, hwide, fun hagain => hiff.1 hagain ⟨rfl, hwide⟩, hlost ⟨rfl, hwide⟩⟩

end Suite

end NameRelay
