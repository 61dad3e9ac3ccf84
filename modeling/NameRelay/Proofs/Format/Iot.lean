-- SUMMARY: IOT packets read back as what was written.
import NameRelay.Format.Iot
import NameRelay.Proofs.Name.Restoring
import NameRelay.Proofs.Wire.Headers

/-!
# IOT packets read back

A packet is an encoding switch and one element whose heads are compact throughout. The optional
headers hold nothing but the time to live, so its place is the same for every value of it.
-/

namespace NameRelay.Iot

open Tlv (Form)

/-! ## Names -/

/-- The components of a name. -/
def nameItems (name : Name) : List (Nat × Bytes) :=
  name.wireComponents.map fun wire => (componentType, wire)

/-- The field of a name, a path name. -/
def nameItem (name : Name) : Nat × Bytes :=
  (nameType, Form.compact.element pathNameType (Form.compact.elements (nameItems name)))

theorem puts_writeElement (type : Nat) {inner : Write Unit} {bs : Bytes}
    (h : Write.Puts inner () bs True) :
    Write.Puts (writeElement type inner) () (Form.compact.element type bs) True :=
  (Form.compact.puts_element type h).congr rfl (and_self_iff)

theorem puts_writeName (name : Name) :
    Write.Puts (writeName name) () (Form.compact.elements [nameItem name]) True := by
  have hcomponents := Write.puts_components
    (fun wire => puts_writeElement componentType (Write.puts_bytes wire)) name
  refine (puts_writeElement nameType (puts_writeElement pathNameType hcomponents)).congr ?_ Iff.rfl
  rw [Form.elements_cons, Form.elements_nil, List.append_nil, nameItem, nameItems, Form.elements_map]

/-- A path name is read as the name that its components are reread as. -/
theorem readPathName_elements {name : Name} (hsuite : name.suite = .iot)
    (hlength : (Form.compact.elements (nameItems name)).length < Form.compact.limit) (pos : Nat) :
    readPathName ⟨pos, Form.compact.elements (nameItems name)⟩ = name.reread := by
  have hreadable : Form.compact.Readable (nameItems name) := by
    apply Form.readable_of_length _ _ hlength
    intro i hi
    obtain ⟨wire, -, rfl⟩ := List.mem_map.1 hi
    simp [componentType]
  rw [readPathName, ← hsuite]
  exact Name.read_elements (fun _ _ _ _ => rfl) hreadable pos

theorem readField_name {name : Name} (hsuite : name.suite = .iot)
    (hlength : (Form.compact.elements (nameItems name)).length < Form.compact.limit)
    (draft : Draft) (pos : Nat) :
    readField draft (Form.compact.place pos nameType
      (Form.compact.element pathNameType (Form.compact.elements (nameItems name)))) =
        name.reread.map fun read => { draft with name := some read } := by
  have hpart : ∀ pos, readNamePart draft.name (Form.compact.place pos pathNameType
      (Form.compact.elements (nameItems name))) = name.reread.map some := by
    intro pos
    rw [readNamePart, Form.place_type, if_pos rfl, Form.place]
    dsimp only
    rw [readPathName_elements hsuite hlength]
    rfl
  have hsmall : pathNameType < Form.compact.limit := by simp [pathNameType]
  have hfold := fun pos => Form.compact.foldM_single
    (i := (pathNameType, Form.compact.elements (nameItems name))) hsmall hlength pos draft.name
      readNamePart
  rw [readField, Form.place_type, if_neg (by decide), if_pos rfl, Form.place]
  dsimp only [Form.head_compact] at hfold ⊢
  rw [hfold, hpart]
  cases name.reread <;> rfl

/-! ## Packets -/

/-- A packet of fields is read as the draft of its fields, if its name is read. -/
theorem decode_fields {type : Nat} {items : List (Nat × Bytes)} {read : Except DecodeError Name}
    {draft : Name → Draft} (htype : type = requestType ∨ type = replyType)
    (hreadable : Form.compact.Readable items)
    (hlength : (Form.compact.elements items).length < Form.compact.limit)
    (hfields : (Form.compact.places (Form.compact.bytes type
      (Form.compact.elements items).length).length items).foldlM readField {} = read.map draft)
    (hname : ∀ name, (draft name).name = some name) :
    decode (Form.compact.element type (Form.compact.elements items)) = read.map fun name =>
      (⟨switch ++ Form.compact.element type (Form.compact.elements items),
        .message (if type = requestType then .interest else .content) name (draft name).content,
        .iot (draft name).details⟩,
        (Form.compact.element type (Form.compact.elements items)).length) := by
  have hsmall : type < Form.compact.limit := by
    rcases htype with rfl | rfl <;> simp [requestType, replyType]
  have hfragment : type ≠ fragmentType := by
    rcases htype with rfl | rfl <;> decide
  have helement := Form.compact.read_element hsmall hlength 0 []
  rw [List.append_nil] at helement
  have hfold := Form.compact.foldM_elements hreadable
    (Form.compact.bytes type (Form.compact.elements items).length).length {} readField
  rw [hfields] at hfold
  rw [Form.head_compact] at helement hfold
  cases read <;>
    simp only [decode, Cursor.ofBytes, helement, bind, Except.bind, Form.place, Nat.zero_add,
      hfragment, if_false, htype, if_true, hfold, Except.map, hname, pure, Except.pure,
      List.take_length]

theorem puts_writePacket (type : Nat) {inner : Write Unit} {bs : Bytes}
    (h : Write.Puts inner () bs True) :
    Write.Puts (writePacket type inner) () (switch ++ Form.compact.element type bs) True :=
  ((puts_writeElement type h).andThen (Switch.puts_write .iot)).congr rfl (and_self_iff)

/-! ## Contents -/

/-- The fields of a content. -/
def contentItems (name : Name) (payload : Bytes) : List (Nat × Bytes) :=
  [nameItem name, (payloadType, Form.compact.element dataType payload)]

/-- The bytes of a content. -/
def contentBytes (name : Name) (payload : Bytes) : Bytes :=
  switch ++ Form.compact.element replyType (Form.compact.elements (contentItems name payload))

/-- What comes of encoding a content. -/
theorem result_encodeContent (name : Name) (payload : Bytes) (o : ContentOptions) :
    Write.Result (contentBytes name payload) True (Write.roomFor name payload.length)
      (encodeContent name payload o) := by
  have hfields := (puts_writeElement payloadType
    (puts_writeElement dataType (Write.puts_bytes payload))).andThen (puts_writeName name)
  have hitems : Write.Puts _ () (Form.compact.elements (contentItems name payload)) True :=
    hfields.congr (by simp [contentItems]) (by simp)
  exact (puts_writePacket replyType hitems).result _

/-- What an encoded content consists of. -/
theorem encodeContent_eq_ok {name : Name} {payload bytes : Bytes} {o : ContentOptions}
    (h : encodeContent name payload o = .ok bytes) :
    bytes = contentBytes name payload ∧ bytes.length ≤ Write.roomFor name payload.length := by
  obtain ⟨-, hroom, rfl⟩ := ((result_encodeContent name payload o).eq_ok_iff bytes).1 h
  exact ⟨rfl, hroom⟩

/-- The data of a payload that begins at `pos`. -/
def dataAt (pos : Nat) (payload : Bytes) : Tlv.Element :=
  Form.compact.place
    (Form.compact.place pos payloadType (Form.compact.element dataType payload)).value.pos dataType
    payload

theorem readField_payload {payload : Bytes} (hlength : payload.length < Form.compact.limit)
    (draft : Draft) (pos : Nat) :
    readField draft (Form.compact.place pos payloadType (Form.compact.element dataType payload)) =
      .ok { draft with content := some ((dataAt pos payload).value.span.shift switch.length) } := by
  have hsmall : dataType < Form.compact.limit := by simp [dataType]
  have hread := Form.compact.read_element hsmall hlength
    (Form.compact.place pos payloadType (Form.compact.element dataType payload)).value.pos []
  have hfull : (Form.compact.element dataType payload).isEmpty = false := by
    simp [Form.element_ne_nil _ hsmall hlength]
  have hcontent : readPayload draft.content
      (Form.compact.place pos payloadType (Form.compact.element dataType payload)).value =
        .ok (some ((dataAt pos payload).value.span.shift switch.length)) := by
    rw [List.append_nil, Form.head_compact] at hread
    rw [readPayload, Cursor.isEmpty, Form.place_rest, hfull, if_neg Bool.false_ne_true]
    refine (congrArg (· >>= _) hread).trans ?_
    rfl
  rw [readField, Form.place_type, if_neg (by decide), if_neg (by decide), if_pos rfl, hcontent]
  rfl

/-- An encoded content is read as the content that it is, if its name is reread. -/
theorem decode_encodeContent_reread {name : Name} (hsuite : name.suite = .iot)
    {payload bytes : Bytes} {o : ContentOptions}
    (hroom : Write.roomFor name payload.length < 2 ^ 60)
    (hok : encodeContent name payload o = .ok bytes) :
    ∃ span : Span, decode (Switch.dropFrom bytes) = (name.reread.map fun read =>
      (⟨bytes, .message .content read (some span), .iot {}⟩, (Switch.dropFrom bytes).length)) ∧
      span.of bytes = payload := by
  obtain ⟨rfl, hle⟩ := encodeContent_eq_ok hok
  rw [contentBytes] at hle ⊢
  rw [switch, Switch.dropFrom_header]
  have hall : (Form.compact.elements (contentItems name payload)).length < Form.compact.limit := by
    rw [List.length_append, Form.length_element] at hle
    rw [Form.limit_compact]
    omega
  have hreadable : Form.compact.Readable (contentItems name payload) := by
    apply Form.readable_of_length _ _ hall
    simp [contentItems, nameItem, nameType, payloadType]
  have hname := readField_name hsuite
    (Form.value_lt_of_element_lt _ (hreadable (nameItem name) List.mem_cons_self).2)
  have hpayload : payload.length < Form.compact.limit := Form.value_lt_of_element_lt _
    (hreadable (payloadType, Form.compact.element dataType payload) (by simp [contentItems])).2
  let head := Form.compact.bytes replyType (Form.compact.elements (contentItems name payload)).length
  let pos := head.length + (Form.compact.element (nameItem name).1 (nameItem name).2).length
  have hfields : (Form.compact.places head.length (contentItems name payload)).foldlM readField {} =
      name.reread.map fun read =>
        ⟨some read, some ((dataAt pos payload).value.span.shift switch.length), {}⟩ := by
    rw [contentItems, Form.foldlM_places_cons, nameItem, hname]
    cases name.reread with
    | error e => rfl
    | ok read =>
      simp only [Form.foldlM_places_cons, readField_payload hpayload, bind, Except.bind, Except.map]
      rfl
  have hin : (dataAt pos payload).value.In
      (Form.compact.element replyType (Form.compact.elements (contentItems name payload))) := by
    apply Form.value_in_of_in
    have hmem : Form.compact.place pos payloadType (Form.compact.element dataType payload) ∈
        Form.compact.places head.length (contentItems name payload) := by
      simp [contentItems, Form.places, pos]
    exact Form.value_in_of_mem_places _ (Form.value_in_element _ replyType _) hmem
  refine ⟨(dataAt pos payload).value.span.shift switch.length, ?_, ?_⟩
  · exact decode_fields (.inr rfl) hreadable hall hfields fun _ => rfl
  · exact Cursor.span_shift_of hin switch

/-- An encoded content is read as the content that it is. -/
theorem decode_encodeContent {name : Name} (h : name.Restorable) (hsuite : name.suite = .iot)
    {payload bytes : Bytes} {o : ContentOptions}
    (hroom : Write.roomFor name payload.length < 2 ^ 60)
    (hok : encodeContent name payload o = .ok bytes) :
    ∃ span : Span, decode (Switch.dropFrom bytes) = .ok (⟨bytes, .message .content name (some span),
      .iot {}⟩, (Switch.dropFrom bytes).length) ∧ span.of bytes = payload := by
  have hread := decode_encodeContent_reread hsuite hroom hok
  rwa [h.reread_eq] at hread

/-! ## Interests -/

/-- The fields of an interest. -/
def interestItems (name : Name) (ttl : UInt8) : List (Nat × Bytes) :=
  [(optionalHeaderType, Form.compact.element hopLimitType [ttl]), nameItem name]

/-- The bytes of an interest. -/
def interestBytes (name : Name) (ttl : UInt8) : Bytes :=
  switch ++ Form.compact.element requestType (Form.compact.elements (interestItems name ttl))

/-- What comes of encoding an interest. -/
theorem result_encodeInterest (name : Name) (o : InterestOptions) :
    Write.Result (interestBytes name (o.hopLimit.getD defaultTtl)) True (Write.roomFor name 0)
      (encodeInterest name o) := by
  have hfields := (puts_writeName name).andThen (puts_writeElement optionalHeaderType
    (puts_writeElement hopLimitType (Write.puts_byte (o.hopLimit.getD defaultTtl))))
  have hitems : Write.Puts _ ()
      (Form.compact.elements (interestItems name (o.hopLimit.getD defaultTtl))) True :=
    hfields.congr (by simp [interestItems]) (by simp)
  exact (puts_writePacket requestType hitems).result _

/-- What an encoded interest consists of. -/
theorem encodeInterest_eq_ok_iff (name : Name) (bytes : Bytes) (o : InterestOptions) :
    encodeInterest name o = .ok bytes ↔
      (interestBytes name (o.hopLimit.getD defaultTtl)).length ≤ Write.roomFor name 0 ∧
        bytes = interestBytes name (o.hopLimit.getD defaultTtl) := by
  rw [(result_encodeInterest name o).eq_ok_iff, true_and]

/-- The bytes in front of the time to live. -/
def beforeTtl (name : Name) : Bytes :=
  switch ++ Form.compact.bytes requestType (Form.compact.elements (interestItems name 0)).length ++
    Form.compact.bytes optionalHeaderType (Form.compact.element hopLimitType [0]).length ++
      Form.compact.bytes hopLimitType 1

theorem length_interestItems (name : Name) (ttl : UInt8) :
    (Form.compact.elements (interestItems name ttl)).length =
      (Form.compact.elements (interestItems name 0)).length := by
  simp [interestItems, Form.length_element]

/-- The time to live is a single byte, and no other byte depends on it. -/
theorem interestBytes_eq (name : Name) (ttl : UInt8) :
    interestBytes name ttl =
      beforeTtl name ++ ttl :: Form.compact.elements [nameItem name] := by
  rw [interestBytes, beforeTtl, Form.element, length_interestItems]
  simp [interestItems, Form.element]

theorem interestBytes_set (name : Name) (ttl t : UInt8) :
    (interestBytes name ttl).set (beforeTtl name).length t = interestBytes name t := by
  rw [interestBytes_eq, interestBytes_eq, List.set_append_right _ _ (Nat.le_refl _), Nat.sub_self,
    List.set_cons_zero]

theorem length_interestBytes (name : Name) (ttl t : UInt8) :
    (interestBytes name ttl).length = (interestBytes name t).length := by
  rw [interestBytes_eq, interestBytes_eq, List.length_append, List.length_append, List.length_cons,
    List.length_cons]

/-- The time to live of optional headers that begin at `pos`. -/
def ttlAt (pos : Nat) (ttl : UInt8) : Tlv.Element :=
  Form.compact.place
    (Form.compact.place pos optionalHeaderType (Form.compact.element hopLimitType [ttl])).value.pos
    hopLimitType [ttl]

theorem readField_ttl (draft : Draft) (ttl : UInt8) (pos : Nat) :
    readField draft
      (Form.compact.place pos optionalHeaderType (Form.compact.element hopLimitType [ttl])) =
        .ok { draft with details := ⟨some ttl, (ttlAt pos ttl).value.pos + switch.length⟩ } := by
  have hsmall : hopLimitType < Form.compact.limit := by simp [hopLimitType]
  have hshort : [ttl].length < Form.compact.limit := by simp
  have hfold := fun pos => Form.compact.foldM_single (i := (hopLimitType, [ttl])) hsmall hshort pos
    draft.details readOptionalHeader
  rw [readField, Form.place_type, if_pos rfl, Form.place]
  dsimp only [Form.head_compact] at hfold ⊢
  rw [hfold]
  rfl

/-- The time to live stands behind the bytes in front of it. -/
theorem ttlAt_pos (name : Name) (ttl : UInt8) :
    (ttlAt (Form.compact.bytes requestType
      (Form.compact.elements (interestItems name ttl)).length).length ttl).value.pos +
        switch.length = (beforeTtl name).length := by
  rw [length_interestItems]
  simp only [ttlAt, Form.place, beforeTtl, List.length_append, Form.length_element,
    List.length_singleton]
  omega

/-- An interest is read as the interest that it is, if its name is read. -/
theorem decode_interest {name : Name} (hsuite : name.suite = .iot) (ttl : UInt8)
    (hall : (Form.compact.elements (interestItems name ttl)).length < Form.compact.limit) :
    decode (Switch.dropFrom (interestBytes name ttl)) = name.reread.map fun read =>
      (⟨interestBytes name ttl, .message .interest read none,
        .iot ⟨some ttl, (beforeTtl name).length⟩⟩,
        (Switch.dropFrom (interestBytes name ttl)).length) := by
  have hreadable : Form.compact.Readable (interestItems name ttl) := by
    apply Form.readable_of_length _ _ hall
    simp [interestItems, nameItem, nameType, optionalHeaderType]
  have hname := readField_name hsuite
    (Form.value_lt_of_element_lt _ (hreadable (nameItem name) (by simp [interestItems])).2)
  let head := Form.compact.bytes requestType
    (Form.compact.elements (interestItems name ttl)).length
  have hfields : (Form.compact.places head.length (interestItems name ttl)).foldlM readField {} =
      name.reread.map fun read => ⟨some read, none, ⟨some ttl, (beforeTtl name).length⟩⟩ := by
    rw [← ttlAt_pos name ttl]
    rw [interestItems, Form.foldlM_places_cons, readField_ttl, nameItem]
    dsimp only [bind, Except.bind]
    rw [Form.foldlM_places_cons, hname]
    cases name.reread <;> rfl
  rw [interestBytes, switch, Switch.dropFrom_header]
  exact decode_fields (.inl rfl) hreadable hall hfields fun _ => rfl

/-- An encoded interest is read as the interest that it is. Its time to live stands where the
    packet says that it does. -/
theorem decode_encodeInterest {name : Name} (h : name.Restorable) (hsuite : name.suite = .iot)
    {bytes : Bytes} {o : InterestOptions} (hroom : Write.roomFor name 0 < 2 ^ 60)
    (hok : encodeInterest name o = .ok bytes) :
    ∃ offset, decode (Switch.dropFrom bytes) = .ok (⟨bytes, .message .interest name none,
      .iot ⟨some (o.hopLimit.getD defaultTtl), offset⟩⟩, (Switch.dropFrom bytes).length) ∧
      bytes[offset]? = some (o.hopLimit.getD defaultTtl) ∧
      ∀ t, encodeInterest name { o with hopLimit := some t } = .ok (bytes.set offset t) := by
  obtain ⟨hle, rfl⟩ := (encodeInterest_eq_ok_iff name bytes o).1 hok
  have hall : (Form.compact.elements (interestItems name (o.hopLimit.getD defaultTtl))).length <
      Form.compact.limit := by
    rw [interestBytes, List.length_append, Form.length_element] at hle
    rw [Form.limit_compact]
    omega
  refine ⟨(beforeTtl name).length, ?_, ?_, ?_⟩
  · rw [decode_interest hsuite _ hall, h.reread_eq]
    rfl
  · rw [interestBytes_eq, List.getElem?_append_right (Nat.le_refl _), Nat.sub_self,
      List.getElem?_cons_zero]
  · intro t
    rw [interestBytes_set]
    have hsame := length_interestBytes name t (o.hopLimit.getD defaultTtl)
    apply (encodeInterest_eq_ok_iff name _ _).2
    exact ⟨Nat.le_trans (Nat.le_of_eq hsame) hle, rfl⟩

end NameRelay.Iot
