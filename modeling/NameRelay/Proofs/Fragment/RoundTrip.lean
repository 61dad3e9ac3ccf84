-- SUMMARY: The fragments that a suite writes are read back with their header and their piece.
import NameRelay.Proofs.Format.Ccnx
import NameRelay.Proofs.Format.Iot
import NameRelay.Proofs.Format.Ndn
import NameRelay.Proofs.Relay.Recognition

/-!
# Fragments read back

The overhead that a suite states is enough for the heads of a fragment, as long as the fragment is
shorter than 65536 bytes. Such a fragment is always written, and what is written is read as one
fragment and nothing else, with the same header, and its piece stands where the packet says.
-/

namespace NameRelay

open Tlv (Form)

/-! ## Headers -/

namespace FragmentHeader

theorem word_lt (h : FragmentHeader) : h.word < 0x10000 := by
  have hbits : h.position.bits < 4 := by
    cases h.position <;> decide
  have hseqno : h.seqno.toNat % seqnoModulus < seqnoModulus := Nat.mod_lt _ (by decide)
  simp only [word, seqnoModulus] at hseqno ⊢
  omega

theorem ofBits_bits (position : FragmentPosition) :
    FragmentPosition.ofBits position.bits = position := by
  cases position <;> rfl

/-- A header reads back from its word, if its number is one. -/
theorem ofWord_word {h : FragmentHeader} (hseqno : h.seqno.toNat < seqnoModulus) :
    ofWord h.word = h := by
  have hposition : h.word / seqnoModulus = h.position.bits := by
    simp only [word, seqnoModulus] at hseqno ⊢
    omega
  have hnumber : h.word % seqnoModulus = h.seqno.toNat := by
    simp only [word, seqnoModulus] at hseqno ⊢
    omega
  rw [ofWord, hposition, hnumber, ofBits_bits, UInt16.ofNat_toNat]

/-- The word of a header reads back from its two bytes. -/
theorem value_word (h : FragmentHeader) : Bytes.value (bigEndian 2 h.word) = h.word :=
  Bytes.value_bigEndian_of_lt h.word_lt

end FragmentHeader

/-! ## Short heads -/

theorem length_flexible_le {type : Nat} {value : Bytes} (htype : type < 253)
    (hvalue : value.length < 0x10000) :
    (Form.flexible.element type value).length ≤ value.length + 4 := by
  have hlength : (Form.flexible.bytes type value.length).length =
      (varNumberBytes type).length + (varNumberBytes value.length).length := List.length_append
  rw [Form.length_element, hlength, length_varNumberBytes_of_lt htype]
  have := length_varNumberBytes_le_of_lt hvalue
  omega

theorem length_compact_le {type : Nat} {value : Bytes} (htype : type < 253)
    (hvalue : value.length < 0x10000) :
    (Form.compact.element type value).length ≤ value.length + 5 := by
  have hflexible := length_flexible_le htype hvalue
  have hlength : (Form.compact.bytes type value.length).length ≤
      (Form.flexible.bytes type value.length).length + 1 := by
    change (Form.compactBytes type value.length).length ≤ _
    unfold Form.compactBytes
    split
    · exact Nat.le_add_left 1 _
    · exact Nat.le_refl _
  rw [Form.length_element] at hflexible ⊢
  omega

/-! ## NDN -/

namespace Ndn

/-- The fields of a fragment. -/
def fragmentItems (header : FragmentHeader) (piece : Bytes) : List (Nat × Bytes) :=
  [(beginEndType, bigEndian 2 header.word), (linkFragmentType, piece)]

/-- The bytes of a fragment. -/
def fragmentBytes (header : FragmentHeader) (piece : Bytes) : Bytes :=
  Form.flexible.element linkType (Form.flexible.elements (fragmentItems header piece))

section

variable (header : FragmentHeader) {piece : Bytes}
  (hpiece : piece.length + fragmentOverhead < 0x10000)
include hpiece

theorem length_fragmentItems_le :
    (Form.flexible.elements (fragmentItems header piece)).length ≤ piece.length + 8 := by
  have hword : (Form.flexible.element beginEndType (bigEndian 2 header.word)).length = 4 := rfl
  have hfield := @length_flexible_le linkFragmentType piece (by decide)
    (Nat.lt_of_le_of_lt (Nat.le_add_right _ _) hpiece)
  simp only [fragmentItems, Form.elements_cons, Form.elements_nil, List.append_nil,
    List.length_append, hword]
  omega

theorem length_fragmentBytes_le :
    (fragmentBytes header piece).length ≤ piece.length + fragmentOverhead := by
  have hitems := length_fragmentItems_le header hpiece
  have hwhole := @length_flexible_le linkType (Form.flexible.elements (fragmentItems header piece))
    (by decide) (by simp only [fragmentOverhead] at hpiece; omega)
  rw [fragmentBytes, fragmentOverhead]
  omega

theorem encodeFragment_eq : encodeFragment header piece = .ok (fragmentBytes header piece) := by
  have hfields := (puts_writeElement linkFragmentType (Write.puts_bytes piece)).andThen
    (puts_writeElement beginEndType (Write.puts_word16 header.word))
  have hitems : Write.Puts _ () (Form.flexible.elements (fragmentItems header piece)) True :=
    hfields.congr (by simp [fragmentItems]) (by simp)
  apply ((puts_writeElement linkType hitems).toBytes_eq_ok_iff _ _).2
  exact ⟨trivial, length_fragmentBytes_le header hpiece, rfl⟩

end

/-- The fields of a fragment say its header and where its piece is. -/
theorem foldlM_fragmentItems (header : FragmentHeader)
    (hseqno : header.seqno.toNat < FragmentHeader.seqnoModulus) (piece : Bytes) (pos : Nat) :
    ∃ e ∈ Form.flexible.places pos (fragmentItems header piece), e.value.rest = piece ∧
      (Form.flexible.places pos (fragmentItems header piece)).foldlM readFragmentField {} =
        .ok ⟨some header, some e.value.span⟩ := by
  have hword : readFragmentField {} (Form.flexible.place pos beginEndType
      (bigEndian 2 header.word)) = .ok ⟨some header, none⟩ := by
    rw [readFragmentField, if_pos ⟨rfl, rfl⟩, Form.place_rest, header.value_word,
      FragmentHeader.ofWord_word hseqno]
  refine ⟨_, List.mem_cons_of_mem _ List.mem_cons_self, rfl, ?_⟩
  rw [fragmentItems, Form.foldlM_places_cons, hword]
  rfl

/-- A fragment that was written is read as the fragment that it is. -/
theorem decode_fragmentBytes (header : FragmentHeader)
    (hseqno : header.seqno.toNat < FragmentHeader.seqnoModulus) {piece : Bytes}
    (hpiece : piece.length + fragmentOverhead < 0x10000) :
    ∃ span : Span, decode (fragmentBytes header piece) =
      .ok (⟨fragmentBytes header piece, .fragment header span, .ndn {}⟩,
        (fragmentBytes header piece).length) ∧ span.of (fragmentBytes header piece) = piece := by
  have hitems := length_fragmentItems_le header hpiece
  have hlength : (Form.flexible.elements (fragmentItems header piece)).length <
      Form.flexible.limit := by
    simp only [fragmentOverhead] at hpiece
    rw [Form.limit_flexible]
    omega
  have hreadable : Form.flexible.Readable (fragmentItems header piece) := by
    apply Form.readable_of_length _ _ hlength
    simp [fragmentItems, beginEndType, linkFragmentType]
  obtain ⟨e, hmem, hrest, hfields⟩ := foldlM_fragmentItems header hseqno piece
    (Form.flexible.bytes linkType
      (Form.flexible.elements (fragmentItems header piece)).length).length
  have hfold := Form.flexible.foldM_elements hreadable (Form.flexible.bytes linkType
    (Form.flexible.elements (fragmentItems header piece)).length).length {} readFragmentField
  have hsmall : linkType < Form.flexible.limit := by simp [linkType]
  have helement := Form.flexible.read_element hsmall hlength 0 []
  rw [hfields, Form.head_flexible] at hfold
  rw [List.append_nil, Form.head_flexible] at helement
  refine ⟨e.value.span, ?_, ?_⟩
  · simp only [fragmentBytes, decode, Cursor.ofBytes, helement, bind, Except.bind, Form.place,
      Nat.zero_add, if_true, hfold, pure, Except.pure, List.take_length]
  · have hin := Form.value_in_of_mem_places _ (Form.value_in_element _ linkType _) hmem
    exact (Cursor.span_of hin).trans hrest

end Ndn

/-! ## IOT -/

namespace Iot

/-- The fields of a fragment. -/
def fragmentItems (header : FragmentHeader) (piece : Bytes) : List (Nat × Bytes) :=
  [(fragmentWordType, bigEndian 2 header.word), (fragmentDataType, piece)]

/-- The bytes of a fragment. -/
def fragmentBytes (header : FragmentHeader) (piece : Bytes) : Bytes :=
  switch ++ Form.compact.element fragmentType (Form.compact.elements (fragmentItems header piece))

section

variable (header : FragmentHeader) {piece : Bytes}
  (hpiece : piece.length + fragmentOverhead < 0x10000)
include hpiece

theorem length_fragmentItems_le :
    (Form.compact.elements (fragmentItems header piece)).length ≤ piece.length + 8 := by
  have hword : (Form.compact.element fragmentWordType (bigEndian 2 header.word)).length = 3 := rfl
  have hfield := @length_compact_le fragmentDataType piece (by decide)
    (Nat.lt_of_le_of_lt (Nat.le_add_right _ _) hpiece)
  simp only [fragmentItems, Form.elements_cons, Form.elements_nil, List.append_nil,
    List.length_append, hword]
  omega

theorem length_fragmentBytes_le :
    (fragmentBytes header piece).length ≤ piece.length + fragmentOverhead := by
  have hswitch : switch.length = 2 := rfl
  have hitems := length_fragmentItems_le header hpiece
  have hwhole := @length_compact_le fragmentType
    (Form.compact.elements (fragmentItems header piece)) (by decide)
      (by simp only [fragmentOverhead] at hpiece; omega)
  rw [fragmentBytes, fragmentOverhead, List.length_append, hswitch]
  omega

theorem encodeFragment_eq : encodeFragment header piece = .ok (fragmentBytes header piece) := by
  have hfields := (puts_writeElement fragmentDataType (Write.puts_bytes piece)).andThen
    (puts_writeElement fragmentWordType (Write.puts_word16 header.word))
  have hitems : Write.Puts _ () (Form.compact.elements (fragmentItems header piece)) True :=
    hfields.congr (by simp [fragmentItems]) (by simp)
  apply ((puts_writePacket fragmentType hitems).toBytes_eq_ok_iff _ _).2
  exact ⟨trivial, length_fragmentBytes_le header hpiece, rfl⟩

end

/-- The fields of a fragment say its header and where its piece is, the switch counted in. -/
theorem foldlM_fragmentItems (header : FragmentHeader) (piece : Bytes) (pos : Nat) :
    ∃ e ∈ Form.compact.places pos (fragmentItems header piece), e.value.rest = piece ∧
      (Form.compact.places pos (fragmentItems header piece)).foldlM readFragmentField {} =
        .ok ⟨some header.word, some (e.value.span.shift switch.length)⟩ := by
  have hword : readFragmentField {} (Form.compact.place pos fragmentWordType
      (bigEndian 2 header.word)) = .ok ⟨some header.word, none⟩ := by
    rw [readFragmentField, if_pos ⟨rfl, rfl⟩, Form.place_rest, header.value_word]
  refine ⟨_, List.mem_cons_of_mem _ List.mem_cons_self, rfl, ?_⟩
  rw [fragmentItems, Form.foldlM_places_cons, hword]
  rfl

/-- A fragment that was written is read, behind its switch, as the fragment that it is. -/
theorem decode_fragmentBytes (header : FragmentHeader)
    (hseqno : header.seqno.toNat < FragmentHeader.seqnoModulus) {piece : Bytes}
    (hpiece : piece.length + fragmentOverhead < 0x10000) :
    ∃ span : Span, decode (Form.compact.element fragmentType
        (Form.compact.elements (fragmentItems header piece))) =
      .ok (⟨fragmentBytes header piece, .fragment header span, .iot {}⟩,
        (Form.compact.element fragmentType
          (Form.compact.elements (fragmentItems header piece))).length) ∧
      span.of (fragmentBytes header piece) = piece := by
  have hitems := length_fragmentItems_le header hpiece
  have hlength : (Form.compact.elements (fragmentItems header piece)).length <
      Form.compact.limit := by
    simp only [fragmentOverhead] at hpiece
    rw [Form.limit_compact]
    omega
  have hreadable : Form.compact.Readable (fragmentItems header piece) := by
    apply Form.readable_of_length _ _ hlength
    simp [fragmentItems, fragmentWordType, fragmentDataType]
  obtain ⟨e, hmem, hrest, hfields⟩ := foldlM_fragmentItems header piece
    (Form.compact.bytes fragmentType
      (Form.compact.elements (fragmentItems header piece)).length).length
  have hfold := Form.compact.foldM_elements hreadable (Form.compact.bytes fragmentType
    (Form.compact.elements (fragmentItems header piece)).length).length {} readFragmentField
  have hsmall : fragmentType < Form.compact.limit := by simp [fragmentType]
  have helement := Form.compact.read_element hsmall hlength 0 []
  rw [hfields, Form.head_compact] at hfold
  rw [List.append_nil, Form.head_compact] at helement
  refine ⟨e.value.span.shift switch.length, ?_, ?_⟩
  · simp only [fragmentBytes, decode, Cursor.ofBytes, helement, bind, Except.bind, Form.place,
      Nat.zero_add, if_true, hfold, pure, Except.pure, List.take_length,
      FragmentHeader.ofWord_word hseqno]
  · have hin := Form.value_in_of_mem_places _ (Form.value_in_element _ fragmentType _) hmem
    exact (Cursor.span_shift_of hin switch).trans hrest

end Iot

/-! ## CCNx -/

namespace Ccnx

/-- The bytes of a fragment. -/
def fragmentBytes (header : FragmentHeader) (piece : Bytes) : Bytes :=
  FixedHeader.packet fragmentPacket 0 header.word (Form.fixed.element fragmentType piece)

theorem length_element_fragment (piece : Bytes) :
    (Form.fixed.element fragmentType piece).length + FixedHeader.size =
      piece.length + fragmentOverhead := by
  have hhead : (Form.fixed.bytes fragmentType piece.length).length = 4 := rfl
  rw [Form.length_element, hhead, fragmentOverhead]
  omega

theorem length_fragmentBytes (header : FragmentHeader) (piece : Bytes) :
    (fragmentBytes header piece).length = piece.length + fragmentOverhead :=
  (FixedHeader.length_packet ..).trans (length_element_fragment piece)

section

variable (header : FragmentHeader) {piece : Bytes}
  (hpiece : piece.length + fragmentOverhead < 0x10000)
include hpiece

theorem encodeFragment_eq : encodeFragment header piece = .ok (fragmentBytes header piece) := by
  have hlength := Nat.lt_of_le_of_lt (Nat.le_of_eq (length_element_fragment piece)) hpiece
  have hvalue := Form.fixed.value_lt_of_element_lt
    (Nat.lt_of_le_of_lt (Nat.le_add_right _ _) hlength)
  have hpacket := FixedHeader.puts_packet fragmentPacket 0 header.word
    (Form.fixed.puts_element fragmentType (Write.puts_bytes piece))
  apply (hpacket.toBytes_eq_ok_iff _ _).2
  exact ⟨⟨⟨trivial, hvalue⟩, hlength⟩, Nat.le_of_eq (length_fragmentBytes header piece), rfl⟩

/-- A fragment that was written is read as the fragment that it is. -/
theorem decode_fragmentBytes (hseqno : header.seqno.toNat < FragmentHeader.seqnoModulus) :
    ∃ span : Span, decode (fragmentBytes header piece) =
      .ok (⟨fragmentBytes header piece, .fragment header span, .ccnx { hopLimit := 0 }⟩,
        (fragmentBytes header piece).length) ∧ span.of (fragmentBytes header piece) = piece := by
  have hlength := Nat.lt_of_le_of_lt (Nat.le_of_eq (length_element_fragment piece)) hpiece
  have hvalue := Form.fixed.value_lt_of_element_lt
    (Nat.lt_of_le_of_lt (Nat.le_add_right _ _) hlength)
  have hheader := FixedHeader.read_packet .ccnxVersion .ccnxHeaderLength fragmentPacket 0
    header.word_lt hlength
  have hbody := fun h => @FixedHeader.body_packet fragmentPacket 0 header.word
    (Form.fixed.element fragmentType piece) h
  have hsmall : fragmentType < Form.fixed.limit := by simp [fragmentType]
  have helement := Form.fixed.read_element hsmall hvalue FixedHeader.size []
  rw [List.append_nil, Form.head_fixed] at helement
  refine ⟨(Form.fixed.place FixedHeader.size fragmentType piece).value.span, ?_, ?_⟩
  · simp only [decode, fragmentBytes, hheader, bind, Except.bind, FixedHeader.take_packet, hbody,
      helement, Form.place_type, and_self, if_true, pure, Except.pure, FixedHeader.length_packet,
      FragmentHeader.ofWord_word hseqno]
  · exact Cursor.span_of (FixedHeader.in_packet (Form.fixed.value_in_element fragmentType piece)
      fragmentPacket 0 header.word)

end

end Ccnx

/-! ## Every suite with fragments -/

namespace Suite

/-- The bytes are read as one fragment of the suite with this header and this piece. -/
def IsFragment (suite : Suite) (header : FragmentHeader) (piece bytes : Bytes) : Prop :=
  ∃ packet span, Datagram.read bytes = ⟨[packet], none⟩ ∧ packet.suite = suite ∧
    packet.body = .fragment header span ∧ span.of packet.bytes = piece

/-- The bytes of a fragment. Suites without fragments have none for it. -/
def fragmentBytes : Suite → FragmentHeader → Bytes → Bytes
  | ccnx => Ccnx.fragmentBytes
  | iot => Iot.fragmentBytes
  | ndn => Ndn.fragmentBytes
  | ccnb | cisco => fun _ _ => []

variable {suite : Suite} {overhead : Nat} (hsuite : suite.fragmentOverhead? = some overhead)
  (header : FragmentHeader) {piece : Bytes} (hpiece : piece.length + overhead < 0x10000)
include hsuite hpiece

theorem encodeFragment_eq :
    suite.encodeFragment header piece = .ok (suite.fragmentBytes header piece) := by
  cases suite with
  | ccnb | cisco => cases hsuite
  | ccnx =>
    cases hsuite
    exact Ccnx.encodeFragment_eq header hpiece
  | iot =>
    cases hsuite
    exact Iot.encodeFragment_eq header hpiece
  | ndn =>
    cases hsuite
    exact Ndn.encodeFragment_eq header hpiece

/-- A fragment that was written is received as the fragment that it is. -/
theorem isFragment_fragmentBytes (hseqno : header.seqno.toNat < FragmentHeader.seqnoModulus) :
    suite.IsFragment header piece (suite.fragmentBytes header piece) := by
  cases suite with
  | ccnb | cisco => cases hsuite
  | ccnx =>
    cases hsuite
    obtain ⟨span, hdecode, hspan⟩ := Ccnx.decode_fragmentBytes header hpiece hseqno
    have hread : Suite.ccnx.decode _ = _ := hdecode
    have hrecognised := recognise?_of_sniff? (read?_of_decode hread) (Ccnx.sniff?_of_decode hdecode)
    exact ⟨_, span, read_of_recognise? hrecognised hread, rfl, rfl, hspan⟩
  | iot =>
    cases hsuite
    obtain ⟨span, hdecode, hspan⟩ := Iot.decode_fragmentBytes header hseqno hpiece
    have hread : Suite.iot.decode _ = _ := hdecode
    exact ⟨_, span, read_of_recognise? (recognise?_of_header .iot _) hread, rfl, rfl, hspan⟩
  | ndn =>
    cases hsuite
    obtain ⟨span, hdecode, hspan⟩ := Ndn.decode_fragmentBytes header hseqno hpiece
    have hread : Suite.ndn.decode _ = _ := hdecode
    have hnarrow : ¬Ndn.TypeIsWide (Ndn.fragmentBytes header piece) := by
      rintro ⟨first, hfirst, hwide⟩
      cases hfirst
      exact hwide rfl
    have hrecognised := recognise?_of_sniff? (read?_of_decode hread)
      (Ndn.sniff?_of_decode hdecode hnarrow)
    exact ⟨_, span, read_of_recognise? hrecognised hread, rfl, rfl, hspan⟩

end Suite

end NameRelay
