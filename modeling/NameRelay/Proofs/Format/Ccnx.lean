-- SUMMARY: CCNx packets read back as what was written.
import NameRelay.Format.Ccnx
import NameRelay.Proofs.Name.Restoring
import NameRelay.Proofs.Wire.Headers

/-!
# CCNx packets read back

A packet is a fixed header and one element. The writer refuses a packet whose length does not fit
the header, so every length inside it fits its field.
-/

namespace NameRelay.Ccnx

open Tlv (Form)

/-! ## Names -/

/-- The field of a name. Its components are elements themselves. -/
def nameItem (name : Name) : Nat × Bytes := (nameType, name.wireComponents.flatten)

theorem puts_writeName (name : Name) :
    Write.Puts (writeName name) () (Form.fixed.elements [nameItem name])
      (name.wireComponents.flatten.length < 0x10000) := by
  have hcomponents := Write.puts_components Write.puts_bytes name
  rw [List.flatMap_id'] at hcomponents
  refine (Form.fixed.puts_element nameType hcomponents).congr ?_ (Iff.of_eq (true_and _))
  rw [Form.elements_cons, Form.elements_nil, List.append_nil, nameItem]

theorem readName_flatten {name : Name} (h : name.Enclosed) (hsuite : name.suite = .ccnx)
    (pos : Nat) : readName ⟨pos, name.wireComponents.flatten⟩ = name.reread := by
  have hframes : name.suite.framesComponents = true := by
    rw [hsuite]
    rfl
  obtain ⟨hwires, hreadable⟩ := h.elements_items hframes
  rw [readName, ← hsuite, ← hwires]
  refine Name.read_elements (f := Form.fixed) ?_ hreadable pos
  intro read pos wire hwire
  rw [Form.place]
  dsimp only
  rw [(Component.element_item hframes (h.wireComponents wire hwire)).1]
  rfl

/-- Where the first field of a packet begins. -/
def firstField : Nat := FixedHeader.size + 4

/-- What a reader makes of the components that are written for a name, which is the first field of
    every packet. Components that stand in no frame may be read as others. -/
def reread (name : Name) : Except DecodeError Name :=
  readName ⟨firstField + 4, name.wireComponents.flatten⟩

theorem readField_name (name : Name) (draft : Draft) :
    readField draft (Form.fixed.place firstField nameType name.wireComponents.flatten) =
      (reread name).map fun read => { draft with name := some read } := by
  rw [readField, Form.place_type, if_pos rfl, Form.place]
  simp only [Form.length_bytes_fixed]
  rw [← reread]
  cases reread name <;> rfl

/-! ## Packets -/

/-- The bytes of a packet around one element. -/
def packetBytes (packetType hopLimit : UInt8) (type : Nat) (items : List (Nat × Bytes)) : Bytes :=
  FixedHeader.packet packetType hopLimit 0 (Form.fixed.element type (Form.fixed.elements items))

theorem puts_writePacket (packetType hopLimit : UInt8) (type : Nat) {inner : Write Unit}
    {items : List (Nat × Bytes)} {p : Prop}
    (h : Write.Puts inner () (Form.fixed.elements items) p) :
    Write.Puts (writePacket packetType hopLimit 0 (writeElement type inner)) ()
      (packetBytes packetType hopLimit type items)
      ((p ∧ (Form.fixed.elements items).length < 0x10000) ∧
        (Form.fixed.element type (Form.fixed.elements items)).length + FixedHeader.size < 0x10000) :=
  FixedHeader.puts_packet packetType hopLimit 0 (Form.fixed.puts_element type h)

/-- A packet of fields is read as the draft of its fields, if its name is read. -/
theorem decode_packetBytes {packetType hopLimit : UInt8} {type : Nat} {items : List (Nat × Bytes)}
    {kind : MessageKind} {read : Except DecodeError Name} {draft : Name → Draft}
    (hkind : messageKind? packetType type = some kind) (hmessage : packetType ≠ fragmentPacket)
    (htypes : type < 0x10000 ∧ ∀ i ∈ items, i.1 < 0x10000)
    (hlength : (Form.fixed.element type (Form.fixed.elements items)).length + FixedHeader.size <
      0x10000)
    (hfields : (Form.fixed.places firstField items).foldlM readField {} = read.map draft)
    (hname : ∀ name, (draft name).name = some name) :
    decode (packetBytes packetType hopLimit type items) = read.map fun name =>
      (⟨packetBytes packetType hopLimit type items, .message kind name (draft name).content,
        .ccnx ⟨hopLimit, (draft name).endChunk⟩⟩,
        (packetBytes packetType hopLimit type items).length) := by
  have hvalue : (Form.fixed.elements items).length < Form.fixed.limit :=
    Form.fixed.value_lt_of_element_lt (Nat.lt_of_le_of_lt (Nat.le_add_right _ _) hlength)
  have hreadable : Form.fixed.Readable items := Form.fixed.readable_of_length htypes.2 hvalue
  have hheader := FixedHeader.read_packet .ccnxVersion .ccnxHeaderLength packetType hopLimit
    (Nat.zero_lt_succ _) hlength
  have hbody := fun h => @FixedHeader.body_packet packetType hopLimit 0
    (Form.fixed.element type (Form.fixed.elements items)) h
  have helement := Form.fixed.read_element htypes.1 hvalue FixedHeader.size []
  rw [List.append_nil, Form.head_fixed] at helement
  have hfold := Form.fixed.foldM_elements hreadable firstField {} readField
  rw [hfields, Form.head_fixed, firstField] at hfold
  cases read <;>
    simp only [decode, packetBytes, hheader, bind, Except.bind, FixedHeader.take_packet, hbody,
      helement, Form.place, Form.length_bytes_fixed, hmessage, false_and, if_false, hkind, hfold,
      Except.map, hname, pure, Except.pure, FixedHeader.length_packet]

/-- A packet does not begin like an encoding switch. -/
theorem head?_packetBytes (packetType hopLimit : UInt8) (type : Nat) (items : List (Nat × Bytes)) :
    (packetBytes packetType hopLimit type items).head? ≠ some Switch.mark := by
  intro hmark
  cases hmark

theorem dropFrom_packetBytes (packetType hopLimit : UInt8) (type : Nat)
    (items : List (Nat × Bytes)) : Switch.dropFrom (packetBytes packetType hopLimit type items) =
      packetBytes packetType hopLimit type items :=
  Switch.dropFrom_of_head? (head?_packetBytes packetType hopLimit type items)

/-! ## Contents -/

/-- The field of the last chunk number, if there is one. -/
def chunkItems (o : ContentOptions) : List (Nat × Bytes) :=
  Form.optional endChunkType (fun n : UInt32 => minimalBigEndian n.toNat) o.finalBlock

/-- The fields of a content. -/
def contentItems (name : Name) (payload : Bytes) (o : ContentOptions) : List (Nat × Bytes) :=
  nameItem name :: (chunkItems o ++ [(payloadType, payload)])

/-- What comes of encoding a content. No length inside a packet is longer than the packet. -/
theorem result_encodeContent (name : Name) (payload : Bytes) (o : ContentOptions) :
    Write.Result (packetBytes contentPacket (o.hopLimit.getD defaultContentHopLimit) objectType
        (contentItems name payload o))
      ((Form.fixed.element objectType (Form.fixed.elements (contentItems name payload o))).length +
        FixedHeader.size < 0x10000)
      (Write.roomFor name payload.length) (encodeContent name payload o) := by
  have hchunk : ∀ n : UInt32, Write.Puts (writeElement endChunkType (Write.minimal n.toNat)) ()
      (Form.fixed.element endChunkType (minimalBigEndian n.toNat)) True := by
    intro n
    have hlength := length_minimalBigEndian_le n.toNat
    refine (Form.fixed.puts_element endChunkType (Write.puts_minimal n.toNat)).congr rfl ?_
    rw [true_and, iff_true]
    exact Nat.lt_of_le_of_lt hlength (by decide)
  have hpayload : Write.Puts _ () (Form.fixed.element payloadType payload) (payload.length < 0x10000) :=
    (Form.fixed.puts_element payloadType (Write.puts_bytes payload)).congr rfl
      (Iff.of_eq (true_and _))
  have hfields := hpayload.andThen <|
    (Write.puts_optional hchunk o.finalBlock).andThen (puts_writeName name)
  have hitems : Write.Puts _ () (Form.fixed.elements (contentItems name payload o)) _ :=
    hfields.congr (by simp [contentItems, chunkItems, Form.elements_append, Form.elements_optional]) Iff.rfl
  have hpacket := puts_writePacket contentPacket (o.hopLimit.getD defaultContentHopLimit) objectType
    hitems
  refine (hpacket.congr rfl ⟨fun h => h.2, fun h => ⟨?_, h⟩⟩).result _
  simp only [contentItems, nameItem, Form.length_element, Form.elements_cons, Form.elements_append,
    Form.elements_nil, List.append_nil, List.length_append, Form.length_bytes_fixed,
    true_and] at h ⊢
  omega

/-- What an encoded content consists of. -/
theorem encodeContent_eq_ok {name : Name} {payload bytes : Bytes} {o : ContentOptions}
    (h : encodeContent name payload o = .ok bytes) :
    bytes = packetBytes contentPacket (o.hopLimit.getD defaultContentHopLimit) objectType
        (contentItems name payload o) ∧
      (Form.fixed.element objectType (Form.fixed.elements (contentItems name payload o))).length +
        FixedHeader.size < 0x10000 := by
  obtain ⟨hfits, -, rfl⟩ := ((result_encodeContent name payload o).eq_ok_iff bytes).1 h
  exact ⟨rfl, hfits⟩

theorem foldlM_chunkItems (o : ContentOptions) (name : Option Name) (pos : Nat) :
    (Form.fixed.places pos (chunkItems o)).foldlM readField ⟨name, none, none⟩ =
      .ok ⟨name, none, o.finalBlock⟩ := by
  have hchunk : ∀ (draft : Draft) (n : UInt32) (pos : Nat),
      readField draft (Form.fixed.place pos endChunkType (minimalBigEndian n.toNat)) =
        .ok { draft with endChunk := some n } := by
    intro draft n pos
    have hlt : n.toNat < 2 ^ 64 := by have := n.toNat_lt; omega
    have hword := Form.fixed.word32?_place pos endChunkType (length_minimalBigEndian_le n.toNat)
      (value_minimalBigEndian hlt)
    rw [readField, Form.place_type, if_neg (by decide), if_neg (by decide), if_pos rfl, hword]
    rfl
  rw [chunkItems, Form.foldlM_optional _ (fun draft n => { draft with endChunk := some n }) hchunk]
  cases o.finalBlock <;> rfl

/-- The fields of a content say what was asked for, if its name is read. -/
theorem foldlM_contentItems (name : Name) (payload : Bytes) (o : ContentOptions) :
    ∃ e ∈ Form.fixed.places firstField (contentItems name payload o), e.value.rest = payload ∧
      (Form.fixed.places firstField (contentItems name payload o)).foldlM readField {} =
        (reread name).map fun read => ⟨some read, some e.value.span, o.finalBlock⟩ := by
  let start := firstField + (Form.fixed.element nameType name.wireComponents.flatten).length +
    (Form.fixed.elements (chunkItems o)).length
  refine ⟨Form.fixed.place start payloadType payload, ?_, rfl, ?_⟩
  · rw [contentItems, Form.places, Form.places_append]
    apply List.mem_cons_of_mem
    exact List.mem_append_right _ List.mem_cons_self
  · rw [contentItems, Form.foldlM_places_cons, nameItem, readField_name]
    cases reread name with
    | error e => rfl
    | ok read =>
      dsimp only [bind, Except.bind, Except.map]
      rw [Form.foldlM_places_append, foldlM_chunkItems]
      rfl

/-- A content is read as the content that it is, if its name is read. -/
theorem decode_content {name : Name} {payload bytes : Bytes} {o : ContentOptions}
    (hok : encodeContent name payload o = .ok bytes) :
    ∃ span : Span, decode (Switch.dropFrom bytes) = (reread name).map (fun read =>
      (⟨bytes, .message .content read (some span),
        .ccnx ⟨o.hopLimit.getD defaultContentHopLimit, o.finalBlock⟩⟩,
        (Switch.dropFrom bytes).length)) ∧ span.of bytes = payload := by
  obtain ⟨rfl, hlength⟩ := encodeContent_eq_ok hok
  rw [dropFrom_packetBytes]
  obtain ⟨e, hmem, hrest, hfields⟩ := foldlM_contentItems name payload o
  have htypes : objectType < 0x10000 ∧ ∀ i ∈ contentItems name payload o, i.1 < 0x10000 := by
    refine ⟨by decide, ?_⟩
    intro i hi
    rcases List.mem_cons.1 hi with rfl | hi
    · simp [nameItem, nameType]
    rcases List.mem_append.1 hi with hchunk | hpayload
    · rw [Form.mem_optional hchunk]
      simp [endChunkType]
    · rw [List.mem_singleton.1 hpayload]
      simp [payloadType]
  have hin := FixedHeader.in_packet (Form.fixed.value_in_element objectType
    (Form.fixed.elements (contentItems name payload o))) contentPacket
      (o.hopLimit.getD defaultContentHopLimit) 0
  rw [Form.length_bytes_fixed] at hin
  refine ⟨e.value.span, decode_packetBytes rfl (by decide) htypes hlength hfields fun _ => rfl, ?_⟩
  exact (Cursor.span_of (Form.value_in_of_mem_places _ hin hmem)).trans hrest

/-- An encoded content is read as the content that it is. -/
theorem decode_encodeContent {name : Name} (h : name.Restorable) (hsuite : name.suite = .ccnx)
    {payload bytes : Bytes} {o : ContentOptions} (hok : encodeContent name payload o = .ok bytes) :
    ∃ span : Span, decode (Switch.dropFrom bytes) = .ok (⟨bytes, .message .content name (some span),
      .ccnx ⟨o.hopLimit.getD defaultContentHopLimit, o.finalBlock⟩⟩,
      (Switch.dropFrom bytes).length) ∧ span.of bytes = payload := by
  obtain ⟨span, hdecode, hspan⟩ := decode_content hok
  rw [reread, readName_flatten h.built.enclosed hsuite, h.reread_eq] at hdecode
  exact ⟨span, hdecode, hspan⟩

/-! ## Interests -/

/-- The bytes of an interest. -/
def interestBytes (name : Name) (o : InterestOptions) : Bytes :=
  packetBytes interestPacket (o.hopLimit.getD defaultInterestHopLimit) interestType [nameItem name]

/-- What comes of encoding an interest. -/
theorem result_encodeInterest (name : Name) (o : InterestOptions) :
    Write.Result (interestBytes name o)
      ((Form.fixed.element interestType (Form.fixed.elements [nameItem name])).length +
        FixedHeader.size < 0x10000)
      (Write.roomFor name 0) (encodeInterest name o) := by
  have hpacket := puts_writePacket interestPacket (o.hopLimit.getD defaultInterestHopLimit)
    interestType (puts_writeName name)
  refine (hpacket.congr rfl ⟨fun h => h.2, fun h => ⟨?_, h⟩⟩).result _
  simp only [Form.length_element, Form.elements_cons, Form.elements_nil, List.append_nil, nameItem,
    Form.length_bytes_fixed] at h ⊢
  omega

/-- What an encoded interest consists of. -/
theorem encodeInterest_eq_ok_iff (name : Name) (bytes : Bytes) (o : InterestOptions) :
    encodeInterest name o = .ok bytes ↔
      (Form.fixed.element interestType (Form.fixed.elements [nameItem name])).length +
        FixedHeader.size < 0x10000 ∧
      (interestBytes name o).length ≤ Write.roomFor name 0 ∧ bytes = interestBytes name o :=
  (result_encodeInterest name o).eq_ok_iff bytes

/-- An interest is read as the interest that it is, if its name is read. -/
theorem decode_interest {name : Name} {bytes : Bytes} {o : InterestOptions}
    (hok : encodeInterest name o = .ok bytes) :
    decode (Switch.dropFrom bytes) = (reread name).map fun read =>
      (⟨bytes, .message .interest read none,
        .ccnx ⟨o.hopLimit.getD defaultInterestHopLimit, none⟩⟩,
        (Switch.dropFrom bytes).length) := by
  obtain ⟨hlength, -, rfl⟩ := (encodeInterest_eq_ok_iff name bytes o).1 hok
  rw [interestBytes, dropFrom_packetBytes]
  have htypes : interestType < 0x10000 ∧ ∀ i ∈ [nameItem name], i.1 < 0x10000 := by
    simp [nameItem, nameType, interestType]
  have hfields : (Form.fixed.places firstField [nameItem name]).foldlM readField {} =
      (reread name).map fun read => ⟨some read, none, none⟩ := by
    rw [Form.foldlM_places_cons, nameItem, readField_name]
    cases reread name <;> rfl
  exact decode_packetBytes rfl (by decide) htypes hlength hfields fun _ => rfl

/-- An encoded interest is read as the interest that it is. -/
theorem decode_encodeInterest {name : Name} (h : name.Restorable) (hsuite : name.suite = .ccnx)
    {bytes : Bytes} {o : InterestOptions} (hok : encodeInterest name o = .ok bytes) :
    decode (Switch.dropFrom bytes) = .ok (⟨bytes, .message .interest name none,
      .ccnx ⟨o.hopLimit.getD defaultInterestHopLimit, none⟩⟩, (Switch.dropFrom bytes).length) := by
  rw [decode_interest hok, reread, readName_flatten h.built.enclosed hsuite, h.reread_eq]
  rfl

end NameRelay.Ccnx
