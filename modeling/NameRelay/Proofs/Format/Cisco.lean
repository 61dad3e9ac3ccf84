-- SUMMARY: Cisco packets read back as what was written.
import NameRelay.Format.Cisco
import NameRelay.Proofs.Name.Restoring
import NameRelay.Proofs.Wire.Headers

/-!
# Cisco packets read back

A packet is an encoding switch, a fixed header and one element. As the packet keeps its switch,
what is in its place behind the switch has moved by the length of it.
-/

namespace NameRelay.Cisco

open Tlv (Form)

/-! ## Names -/

/-- The field of a name. Its components are elements themselves. -/
def nameItem (name : Name) : Nat × Bytes := (nameType, name.wireComponents.flatten)

theorem puts_writeName (name : Name) :
    Write.Puts (writeName name) () (Form.fixed.elements [nameItem name])
      (name.wireComponents.flatten.length < 0x10000) := by
  have hcomponents := Write.puts_components Write.puts_bytes name
  rw [List.flatMap_id'] at hcomponents
  refine (Form.fixed.puts_element nameType hcomponents).congr ?_ (Iff.of_eq (true_and _))
  rw [Form.elements_cons, Form.elements_nil, List.append_nil, nameItem]

/-- A framed component has one of the two types that a name is made of. -/
theorem isComponent_item {wire : Bytes} (h : Component.Framed .cisco wire) :
    isComponent (Component.item wire).1 = true := by
  obtain ⟨type, value, rfl, rfl | rfl, -⟩ := h
  · rw [Component.item, Component.type?_frame (by decide)]
    rfl
  · rw [Component.item, Component.type?_frame (by decide)]
    rfl

theorem readName_flatten {name : Name}
    (h : ∀ wire ∈ name.components, Component.WellFormed name.suite wire)
    (hsuite : name.suite = .cisco) (pos : Nat) :
    readName ⟨pos, name.wireComponents.flatten⟩ = name.reread := by
  have hframes : name.suite.framesComponents = true := by
    rw [hsuite]
    rfl
  have henclosed : name.Enclosed := fun wire hwire => (h wire hwire).enclosed
  obtain ⟨hwires, hreadable⟩ := henclosed.elements_items hframes
  rw [readName, ← hsuite, ← hwires]
  refine Name.read_elements (f := Form.fixed) ?_ hreadable pos
  intro read pos wire hwire
  have hform := Name.wellFormed_wireComponents h wire hwire
  have helement := (Component.element_item hframes hform.enclosed).1
  have hframed := hform hframes
  rw [hsuite] at hframed
  rw [Form.place]
  dsimp only
  rw [isComponent_item hframed, if_pos rfl, helement]
  rfl

/-- Where the first field of a packet begins. -/
def firstField : Nat := FixedHeader.size + 4

/-- What a reader makes of the components that are written for a name, which is the first field of
    every packet. Components that stand in no frame may be read as others, or not at all. -/
def reread (name : Name) : Except DecodeError Name :=
  readName ⟨firstField + 4, name.wireComponents.flatten⟩

theorem readField_name (name : Name) (draft : Draft) :
    readField draft (Form.fixed.place firstField nameType name.wireComponents.flatten) =
      (reread name).map fun read => { draft with name := some read } := by
  rw [readField, Form.place_type, if_pos rfl, Form.place]
  simp only [Form.length_bytes_fixed]
  rw [← reread]
  cases reread name <;> rfl

/-! ## Packets -/

/-- The bytes of a packet around one element, behind its switch. -/
def packetBytes (packetType hopLimit : UInt8) (type : Nat) (items : List (Nat × Bytes)) : Bytes :=
  FixedHeader.packet packetType hopLimit 0 (Form.fixed.element type (Form.fixed.elements items))

theorem puts_writePacket (packetType hopLimit : UInt8) (type : Nat) {inner : Write Unit}
    {items : List (Nat × Bytes)} {p : Prop}
    (h : Write.Puts inner () (Form.fixed.elements items) p) :
    Write.Puts (writePacket packetType hopLimit (writeElement type inner)) ()
      (Switch.header .cisco ++ packetBytes packetType hopLimit type items)
      ((p ∧ (Form.fixed.elements items).length < 0x10000) ∧
        (Form.fixed.element type (Form.fixed.elements items)).length + FixedHeader.size <
          0x10000) := by
  have helement := (Form.fixed.puts_element type h).measured
  have hheader := (FixedHeader.puts_write packetType hopLimit 0
    (Form.fixed.element type (Form.fixed.elements items)).length).andThen (Switch.puts_write .cisco)
  refine (helement.bind hheader).congr ?_ ?_
  · rw [List.append_assoc]
    rfl
  · rw [and_true]
    rfl

/-- The one element of a packet is read like any other, if its type is right. -/
theorem readMessage_element {type : Nat} (htype : type = interestType ∨ type = contentType)
    {value : Bytes} (hlength : value.length < 0x10000) (pos : Nat) :
    readMessage ⟨pos, Form.fixed.element type value⟩ = .ok (Form.fixed.place pos type value).value := by
  have hsmall : type < 0x10000 := by
    rcases htype with rfl | rfl <;> simp [interestType, contentType]
  have hright : ¬(type ≠ interestType ∧ type ≠ contentType) := by
    intro hboth
    rcases htype with rfl | rfl
    · exact hboth.1 rfl
    · exact hboth.2 rfl
  simp only [readMessage, Form.element, Form.fixed, List.append_assoc, word16_bigEndian hsmall,
    bind, Except.bind, hright, if_false, word16_bigEndian hlength, Cursor.split, Cursor.remaining,
    Nat.le_refl, if_true, List.take_length, pure, Except.pure, Form.place, List.length_append,
    length_bigEndian, Nat.add_assoc]

/-- A packet of fields is read as the draft of its fields, if its name is read. -/
theorem decode_packetBytes {packetType hopLimit : UInt8} {type : Nat} {items : List (Nat × Bytes)}
    {kind : MessageKind} {read : Except DecodeError Name} {draft : Name → Draft}
    (hkind : messageKind? packetType = some kind)
    (htype : type = interestType ∨ type = contentType) (htypes : ∀ i ∈ items, i.1 < 0x10000)
    (hlength : (Form.fixed.element type (Form.fixed.elements items)).length + FixedHeader.size <
      0x10000)
    (hfields : (Form.fixed.places firstField items).foldlM readField {} = read.map draft)
    (hname : ∀ name, (draft name).name = some name) :
    decode (packetBytes packetType hopLimit type items) = read.map fun name =>
      (⟨Switch.header .cisco ++ packetBytes packetType hopLimit type items,
        .message kind name ((draft name).content.map (·.shift (Switch.header .cisco).length)),
        .cisco ⟨hopLimit, (draft name).finalSegment⟩⟩,
        (packetBytes packetType hopLimit type items).length) := by
  have hvalue : (Form.fixed.elements items).length < Form.fixed.limit :=
    Form.fixed.value_lt_of_element_lt (Nat.lt_of_le_of_lt (Nat.le_add_right _ _) hlength)
  have hreadable : Form.fixed.Readable items := Form.fixed.readable_of_length htypes hvalue
  have hheader := FixedHeader.read_packet .ciscoVersion .ciscoHeaderLength packetType hopLimit
    (Nat.zero_lt_succ _) hlength
  have hbody := fun h => @FixedHeader.body_packet packetType hopLimit 0
    (Form.fixed.element type (Form.fixed.elements items)) h
  have hmessage := readMessage_element htype hvalue FixedHeader.size
  have hfold := Form.fixed.foldM_elements hreadable firstField {} readField
  rw [hfields, Form.head_fixed, firstField] at hfold
  cases read <;>
    simp only [decode, packetBytes, hheader, bind, Except.bind, FixedHeader.take_packet, hbody, hkind,
      hmessage, Form.place, Form.length_bytes_fixed, hfold, Except.map, hname, pure, Except.pure,
      FixedHeader.length_packet]

/-! ## Contents -/

/-- The field of the last segment number, if there is one. -/
def segmentItems (o : ContentOptions) : List (Nat × Bytes) :=
  Form.optional finalSegmentType (fun n : UInt32 => bigEndian 4 n.toNat) o.finalBlock

/-- The fields of a content. -/
def contentItems (name : Name) (payload : Bytes) (o : ContentOptions) : List (Nat × Bytes) :=
  nameItem name :: (segmentItems o ++ [(contentDataType, payload)])

/-- What comes of encoding a content. No length inside a packet is longer than the packet. -/
theorem result_encodeContent (name : Name) (payload : Bytes) (o : ContentOptions) :
    Write.Result (Switch.header .cisco ++ packetBytes contentPacket
        (o.hopLimit.getD defaultHopLimit) contentType (contentItems name payload o))
      ((Form.fixed.element contentType (Form.fixed.elements (contentItems name payload o))).length +
        FixedHeader.size < 0x10000)
      (Write.roomFor name payload.length) (encodeContent name payload o) := by
  have hsegment : ∀ n : UInt32, Write.Puts (writeElement finalSegmentType (Write.word32 n.toNat)) ()
      (Form.fixed.element finalSegmentType (bigEndian 4 n.toNat)) True := by
    intro n
    refine (Form.fixed.puts_element finalSegmentType (Write.puts_word32 n.toNat)).congr rfl ?_
    rw [true_and, iff_true, length_bigEndian]
    exact (by decide : (4 : Nat) < 0x10000)
  have hpayload : Write.Puts _ () (Form.fixed.element contentDataType payload) (payload.length < 0x10000) :=
    (Form.fixed.puts_element contentDataType (Write.puts_bytes payload)).congr rfl
      (Iff.of_eq (true_and _))
  have hfields := hpayload.andThen <|
    (Write.puts_optional hsegment o.finalBlock).andThen (puts_writeName name)
  have hitems : Write.Puts _ () (Form.fixed.elements (contentItems name payload o)) _ :=
    hfields.congr (by simp [contentItems, segmentItems, Form.elements_append,
      Form.elements_optional]) Iff.rfl
  have hpacket := puts_writePacket contentPacket (o.hopLimit.getD defaultHopLimit) contentType hitems
  refine (hpacket.congr rfl ⟨fun h => h.2, fun h => ⟨?_, h⟩⟩).result _
  simp only [contentItems, nameItem, Form.length_element, Form.elements_cons, Form.elements_append,
    Form.elements_nil, List.append_nil, List.length_append, Form.length_bytes_fixed,
    true_and] at h ⊢
  omega

/-- What an encoded content consists of. -/
theorem encodeContent_eq_ok {name : Name} {payload bytes : Bytes} {o : ContentOptions}
    (h : encodeContent name payload o = .ok bytes) :
    bytes = Switch.header .cisco ++ packetBytes contentPacket (o.hopLimit.getD defaultHopLimit)
        contentType (contentItems name payload o) ∧
      (Form.fixed.element contentType (Form.fixed.elements (contentItems name payload o))).length +
        FixedHeader.size < 0x10000 := by
  obtain ⟨hfits, -, rfl⟩ := ((result_encodeContent name payload o).eq_ok_iff bytes).1 h
  exact ⟨rfl, hfits⟩

theorem foldlM_segmentItems (o : ContentOptions) (name : Option Name) (pos : Nat) :
    (Form.fixed.places pos (segmentItems o)).foldlM readField ⟨name, none, none⟩ =
      .ok ⟨name, none, o.finalBlock⟩ := by
  have hsegment : ∀ (draft : Draft) (n : UInt32) (pos : Nat),
      readField draft (Form.fixed.place pos finalSegmentType (bigEndian 4 n.toNat)) =
        .ok { draft with finalSegment := some n } := by
    intro draft n pos
    have hlength : (bigEndian 4 n.toNat).length ≤ 8 := by simp
    have hword := Form.fixed.word32?_place pos finalSegmentType hlength
      (Bytes.value_bigEndian_of_lt n.toNat_lt)
    rw [readField, Form.place_type, if_neg (by decide), if_pos rfl, hword]
    rfl
  rw [segmentItems,
    Form.foldlM_optional _ (fun draft n => { draft with finalSegment := some n }) hsegment]
  cases o.finalBlock <;> rfl

/-- The fields of a content say what was asked for, if its name is read. -/
theorem foldlM_contentItems (name : Name) (payload : Bytes) (o : ContentOptions) :
    ∃ e ∈ Form.fixed.places firstField (contentItems name payload o), e.value.rest = payload ∧
      (Form.fixed.places firstField (contentItems name payload o)).foldlM readField {} =
        (reread name).map fun read => ⟨some read, some e.value.span, o.finalBlock⟩ := by
  let start := firstField + (Form.fixed.element nameType name.wireComponents.flatten).length +
    (Form.fixed.elements (segmentItems o)).length
  refine ⟨Form.fixed.place start contentDataType payload, ?_, rfl, ?_⟩
  · rw [contentItems, Form.places, Form.places_append]
    apply List.mem_cons_of_mem
    exact List.mem_append_right _ List.mem_cons_self
  · rw [contentItems, Form.foldlM_places_cons, nameItem, readField_name]
    cases reread name with
    | error e => rfl
    | ok read =>
      dsimp only [bind, Except.bind, Except.map]
      rw [Form.foldlM_places_append, foldlM_segmentItems]
      rfl

/-- A content is read as the content that it is, if its name is read. -/
theorem decode_content {name : Name} {payload bytes : Bytes} {o : ContentOptions}
    (hok : encodeContent name payload o = .ok bytes) :
    ∃ span : Span, decode (Switch.dropFrom bytes) = (reread name).map (fun read =>
      (⟨bytes, .message .content read (some span),
        .cisco ⟨o.hopLimit.getD defaultHopLimit, o.finalBlock⟩⟩, (Switch.dropFrom bytes).length)) ∧
      span.of bytes = payload := by
  obtain ⟨rfl, hlength⟩ := encodeContent_eq_ok hok
  obtain ⟨e, hmem, hrest, hfields⟩ := foldlM_contentItems name payload o
  have htypes : ∀ i ∈ contentItems name payload o, i.1 < 0x10000 := by
    intro i hi
    rcases List.mem_cons.1 hi with rfl | hi
    · simp [nameItem, nameType]
    rcases List.mem_append.1 hi with hsegment | hpayload
    · rw [Form.mem_optional hsegment]
      simp [finalSegmentType]
    · rw [List.mem_singleton.1 hpayload]
      simp [contentDataType]
  have hin := FixedHeader.in_packet (Form.fixed.value_in_element contentType
    (Form.fixed.elements (contentItems name payload o))) contentPacket
      (o.hopLimit.getD defaultHopLimit) 0
  rw [Form.length_bytes_fixed] at hin
  rw [Switch.dropFrom_header]
  refine ⟨e.value.span.shift (Switch.header .cisco).length,
    decode_packetBytes rfl (.inr rfl) htypes hlength hfields fun _ => rfl, ?_⟩
  exact (Cursor.span_shift_of (Form.value_in_of_mem_places _ hin hmem) _).trans hrest

/-- An encoded content is read as the content that it is. -/
theorem decode_encodeContent {name : Name} (h : name.Restorable) (hsuite : name.suite = .cisco)
    {payload bytes : Bytes} {o : ContentOptions} (hok : encodeContent name payload o = .ok bytes) :
    ∃ span : Span, decode (Switch.dropFrom bytes) = .ok (⟨bytes, .message .content name (some span),
      .cisco ⟨o.hopLimit.getD defaultHopLimit, o.finalBlock⟩⟩, (Switch.dropFrom bytes).length) ∧
      span.of bytes = payload := by
  obtain ⟨span, hdecode, hspan⟩ := decode_content hok
  rw [reread, readName_flatten h.built.wellFormed.components hsuite, h.reread_eq] at hdecode
  exact ⟨span, hdecode, hspan⟩

/-! ## Interests -/

/-- The bytes of an interest. -/
def interestBytes (name : Name) (o : InterestOptions) : Bytes :=
  Switch.header .cisco ++
    packetBytes interestPacket (o.hopLimit.getD defaultHopLimit) interestType [nameItem name]

/-- What comes of encoding an interest. -/
theorem result_encodeInterest (name : Name) (o : InterestOptions) :
    Write.Result (interestBytes name o)
      ((Form.fixed.element interestType (Form.fixed.elements [nameItem name])).length +
        FixedHeader.size < 0x10000)
      (Write.roomFor name 0) (encodeInterest name o) := by
  have hpacket := puts_writePacket interestPacket (o.hopLimit.getD defaultHopLimit) interestType
    (puts_writeName name)
  refine (hpacket.congr rfl ⟨fun h => h.2, fun h => ⟨?_, h⟩⟩).result _
  simp only [Form.length_element, Form.elements_cons, Form.elements_nil, List.append_nil, nameItem,
    Form.length_bytes_fixed] at h ⊢
  omega

/-- What an encoded interest consists of. -/
theorem encodeInterest_eq_ok_iff (name : Name) (bytes : Bytes) (o : InterestOptions) :
    encodeInterest name o = .ok bytes ↔
      (Form.fixed.element interestType (Form.fixed.elements [nameItem name])).length +
        FixedHeader.size < 0x10000 ∧
      (interestBytes name o).length ≤ Write.roomFor name 0 ∧ bytes = interestBytes name o :=
  (result_encodeInterest name o).eq_ok_iff bytes

/-- An interest is read as the interest that it is, if its name is read. -/
theorem decode_interest {name : Name} {bytes : Bytes} {o : InterestOptions}
    (hok : encodeInterest name o = .ok bytes) :
    decode (Switch.dropFrom bytes) = (reread name).map fun read =>
      (⟨bytes, .message .interest read none, .cisco ⟨o.hopLimit.getD defaultHopLimit, none⟩⟩,
        (Switch.dropFrom bytes).length) := by
  obtain ⟨hlength, -, rfl⟩ := (encodeInterest_eq_ok_iff name bytes o).1 hok
  have htypes : ∀ i ∈ [nameItem name], i.1 < 0x10000 := by
    simp [nameItem, nameType]
  have hfields : (Form.fixed.places firstField [nameItem name]).foldlM readField {} =
      (reread name).map fun read => ⟨some read, none, none⟩ := by
    rw [Form.foldlM_places_cons, nameItem, readField_name]
    cases reread name <;> rfl
  rw [interestBytes, Switch.dropFrom_header]
  exact decode_packetBytes rfl (.inl rfl) htypes hlength hfields fun _ => rfl

/-- An encoded interest is read as the interest that it is. -/
theorem decode_encodeInterest {name : Name} (h : name.Restorable) (hsuite : name.suite = .cisco)
    {bytes : Bytes} {o : InterestOptions} (hok : encodeInterest name o = .ok bytes) :
    decode (Switch.dropFrom bytes) = .ok (⟨bytes, .message .interest name none,
      .cisco ⟨o.hopLimit.getD defaultHopLimit, none⟩⟩, (Switch.dropFrom bytes).length) := by
  rw [decode_interest hok, reread, readName_flatten h.built.wellFormed.components hsuite,
    h.reread_eq]
  rfl

end NameRelay.Cisco
