-- SUMMARY: Which packets find no room while they are written, and which are too long for their length fields.
import NameRelay.Proofs.Format.Surviving

/-!
# Room for packets

The room for a packet is taken from its name and its payload, with an allowance for everything else.
Nearly always it is enough, and then only the two suites with lengths of 16 bits can refuse a packet.
It is not enough in two cases. A publisher key may have any length and is not counted. And the
length of a compact element takes up to eleven bytes where ten are allowed, which shows once a name
has more than 61 components that need them all.
-/

namespace NameRelay

open Tlv (Form)

/-- The markers take no more than both of them do. -/
theorem Name.length_markers_le (name : Name) (out : Bytes → Bytes) :
    (name.markers.flatMap out).length ≤
      (out (Component.marker name.suite Component.thunkWord)).length +
        (out (Component.marker name.suite Component.nfnWord)).length := by
  unfold markers
  split
  · split <;> simp
  · exact Nat.zero_le _

theorem length_optional_le {γ : Type} (value : Option γ) {out : γ → Bytes} {most : Nat}
    (h : ∀ c ∈ value, (out c).length ≤ most) : (value.elim [] out).length ≤ most := by
  cases value with
  | none => exact Nat.zero_le most
  | some c => exact h c rfl

/-! ## CCNB -/

namespace Ccnb

theorem length_headerBytes_le {number : Nat} (h : number < 2048) (kind : Nat) :
    (headerBytes number kind).length ≤ 2 := by
  have hhigh := @length_highBits_le (number / 16) 1 (by omega)
  rw [headerBytes, List.length_append, List.length_singleton]
  omega

theorem length_fieldBytes_le {tag : Nat} (htag : tag < 2048) (kind : Nat) {data : Bytes}
    (hdata : data.length < 2048) : (fieldBytes tag kind data).length ≤ data.length + 5 := by
  have hhead := length_headerBytes_le htag tagKind
  have hlength := length_headerBytes_le hdata kind
  simp only [fieldBytes, dataBytes, List.length_append, List.length_singleton]
  omega

theorem length_packetBytes_le {tag : Nat} (htag : tag < 2048) (fields : Bytes) :
    (packetBytes tag fields).length ≤ fields.length + 3 := by
  have hhead := length_headerBytes_le htag tagKind
  simp only [packetBytes, List.length_append, List.length_singleton]
  omega

variable {name : Name}

theorem length_nameBytes_le (hsuite : name.suite = .ccnb)
    (hcomponents : ∀ wire ∈ name.components, wire.length < 2 ^ 53) :
    (nameBytes name).length ≤ name.components.flatten.length + name.components.length * 10 + 16 := by
  have hown : (name.components.flatMap (fieldBytes componentTag blobKind)).length ≤ _ :=
    Write.length_flatMap_le fun wire hwire => length_component_le (hcomponents wire hwire)
  have hmarkers := name.length_markers_le (fieldBytes componentTag blobKind)
  have hthunk : (fieldBytes componentTag blobKind
      (Component.marker .ccnb Component.thunkWord)).length = 8 := by
    simp [fieldBytes, dataBytes, headerBytes, highBits, componentTag, Component.marker,
      Component.thunkWord, Suite.framesComponents]
  have hnfn : (fieldBytes componentTag blobKind
      (Component.marker .ccnb Component.nfnWord)).length = 6 := by
    simp [fieldBytes, dataBytes, headerBytes, highBits, componentTag, Component.marker,
      Component.nfnWord, Suite.framesComponents]
  have hhead : (headerBytes nameTag tagKind).length = 1 := by
    simp [headerBytes, highBits, nameTag]
  rw [hsuite, hthunk, hnfn] at hmarkers
  simp only [Write.componentAllowance] at hown
  simp only [nameBytes, componentsBytes, Name.wireComponents, List.flatMap_append,
    List.length_append, List.length_singleton, hhead]
  omega

theorem length_decimalField_le {tag : Nat} (htag : tag < 2048) {n k : Nat} (hk : 0 < k)
    (hk' : k < 2048) (h : n < 10 ^ k) :
    (fieldBytes tag textKind (decimalBytes n)).length ≤ k + 5 := by
  have hdigits := length_decimalBytes_le hk h
  have hfield := length_fieldBytes_le htag textKind (Nat.lt_of_le_of_lt hdigits hk')
  omega

/-- An interest without a publisher key. -/
def keylessBytes (name : Name) (o : InterestOptions) : Bytes :=
  packetBytes interestTag (nameBytes name ++ selectorBytes { o with publisherKey := none })

/-- The room that an interest leaves for its publisher key. -/
def roomForKey (name : Name) (o : InterestOptions) : Nat :=
  Write.roomFor name 0 - (keylessBytes name o).length

/-- There is room for an interest without a publisher key, and for a key of 37 bytes. -/
theorem length_keylessBytes_le (hsuite : name.suite = .ccnb)
    (hcomponents : ∀ wire ∈ name.components, wire.length < 2 ^ 53) {o : InterestOptions}
    (hnonce : ∀ nonce ∈ o.nonce, nonce.length = 4) :
    (keylessBytes name o).length + 42 ≤ Write.roomFor name 0 := by
  have hname := length_nameBytes_le hsuite hcomponents
  have hword : ∀ (tag : Nat), tag < 2048 → ∀ (value : Option UInt64), (value.elim [] fun n =>
      fieldBytes tag textKind (decimalBytes n.toNat)).length ≤ 25 := fun tag htag value =>
    length_optional_le value fun n _ =>
      length_decimalField_le htag (by decide) (by decide) (Nat.lt_trans n.toNat_lt (by decide))
  have hmin := hword minSuffixTag (by decide) o.minSuffix
  have hmax := hword maxSuffixTag (by decide) o.maxSuffix
  have hscope : (o.scope.elim [] fun n =>
      fieldBytes scopeTag textKind (decimalBytes n.toNat)).length ≤ 8 :=
    length_optional_le o.scope fun n _ => length_decimalField_le (by decide) (by decide)
      (by decide) (Nat.lt_trans n.toNat_lt (by decide))
  have hnonce : (o.nonce.elim [] (fieldBytes nonceTag blobKind)).length ≤ 9 := by
    refine length_optional_le o.nonce fun nonce hmem => ?_
    have hfour := hnonce nonce hmem
    have hfield := @length_fieldBytes_le nonceTag (by decide) blobKind nonce (by omega)
    omega
  have hall := @length_packetBytes_le interestTag (by decide)
    (nameBytes name ++ selectorBytes { o with publisherKey := none })
  rw [Write.roomFor_eq, keylessBytes]
  simp only [selectorBytes, Option.elim_none, List.length_append, List.nil_append,
    Write.flatAllowance, Write.componentAllowance] at hall ⊢
  omega

/-- A key of up to 37 bytes always finds room, so a digest does. -/
theorem length_keyField_le (hsuite : name.suite = .ccnb)
    (hcomponents : ∀ wire ∈ name.components, wire.length < 2 ^ 53) {o : InterestOptions}
    (hnonce : ∀ nonce ∈ o.nonce, nonce.length = 4) {key : Bytes} (hkey : key.length ≤ 37) :
    (fieldBytes publisherKeyTag blobKind key).length ≤ roomForKey name o := by
  have hkeyless := length_keylessBytes_le hsuite hcomponents hnonce
  have hfield := @length_fieldBytes_le publisherKeyTag (by decide) blobKind key (by omega)
  rw [roomForKey]
  omega

/-- An interest finds no room exactly if its publisher key finds none beside the rest. -/
theorem roomFor_lt_interest_iff (hsuite : name.suite = .ccnb)
    (hcomponents : ∀ wire ∈ name.components, wire.length < 2 ^ 53) {o : InterestOptions}
    (hnonce : ∀ nonce ∈ o.nonce, nonce.length = 4) :
    Write.roomFor name 0 < (packetBytes interestTag (nameBytes name ++ selectorBytes o)).length ↔
      ∃ key ∈ o.publisherKey,
        roomForKey name o < (fieldBytes publisherKeyTag blobKind key).length := by
  have hkeyless := length_keylessBytes_le hsuite hcomponents hnonce
  have hall : (packetBytes interestTag (nameBytes name ++ selectorBytes o)).length =
      (keylessBytes name o).length +
        (o.publisherKey.elim [] (fieldBytes publisherKeyTag blobKind)).length := by
    simp only [packetBytes, keylessBytes, selectorBytes, List.length_append, Option.elim_none,
      List.nil_append]
    omega
  rw [hall]
  cases o.publisherKey with
  | none => simp; omega
  | some key => simp [roomForKey]; omega

/-- There is room for every content. -/
theorem length_content_le (hsuite : name.suite = .ccnb)
    (hcomponents : ∀ wire ∈ name.components, wire.length < 2 ^ 53) {payload : Bytes}
    (hpayload : payload.length < 2 ^ 53) (o : ContentOptions) :
    (packetBytes contentObjectTag (contentBytes name payload o)).length ≤
      Write.roomFor name payload.length := by
  have hname := length_nameBytes_le hsuite hcomponents
  have hfinal : (o.finalBlock.elim [] finalBlockBytes).length ≤ 17 := by
    refine length_optional_le o.finalBlock fun block _ => ?_
    have hblock : (blockComponent block).length ≤ 9 := by
      have hdigits := length_minimalBigEndian_le block.toNat
      rw [blockComponent, List.length_cons]
      split
      · exact (by decide : 0 + 1 ≤ 9)
      · omega
    have hfield := @length_fieldBytes_le finalBlockTag (by decide) blobKind (blockComponent block)
      (by omega)
    have hhead := @length_headerBytes_le signedInfoTag (by decide) tagKind
    simp only [finalBlockBytes, List.length_append, List.length_singleton]
    omega
  have hfield : (fieldBytes contentTag blobKind payload).length ≤ payload.length + 11 := by
    have hhead := @length_headerBytes_le contentTag (by decide) tagKind
    have hhigh := @length_highBits_le (payload.length / 16) 7 (by omega)
    simp only [fieldBytes, dataBytes, headerBytes, List.length_append, List.length_singleton] at hhead ⊢
    omega
  have hall := @length_packetBytes_le contentObjectTag (by decide) (contentBytes name payload o)
  rw [Write.roomFor_eq]
  simp only [contentBytes, List.length_append, Write.flatAllowance,
    Write.componentAllowance] at hall ⊢
  omega

end Ccnb

/-! ## NDN -/

namespace Ndn

variable {name : Name}

/-- The head of a short element has two bytes. -/
theorem length_element_of_lt {type : Nat} (htype : type < 253) {value : Bytes}
    (hvalue : value.length < 253) :
    (Form.flexible.element type value).length = value.length + 2 := by
  simp only [Form.length_element, Form.flexible, Form.flexibleBytes, List.length_append,
    length_varNumberBytes_of_lt htype, length_varNumberBytes_of_lt hvalue]
  omega

theorem length_numberElement_le {type : Nat} (htype : type < 253) (n : Nat) :
    (Form.flexible.element type (nonNegativeBytes n)).length ≤ 10 := by
  have hnumber := length_nonNegativeBytes_le n
  rw [length_element_of_lt htype (by omega)]
  omega

theorem length_nameItem_le (hsuite : name.suite = .ndn) :
    (Form.flexible.elements [nameItem name]).length ≤
      name.components.flatten.length + name.components.length * 10 + 22 := by
  have hown : (name.components.flatMap (Form.flexible.element componentType)).length ≤ _ :=
    Write.length_flatMap_le fun wire _ => length_element_le (by decide) wire
  have hmarkers := name.length_markers_le (Form.flexible.element componentType)
  have hthunk : (Form.flexible.element componentType
      (Component.marker .ndn Component.thunkWord)).length = 7 := rfl
  have hnfn : (Form.flexible.element componentType
      (Component.marker .ndn Component.nfnWord)).length = 5 := rfl
  have hitems : Form.flexible.elements (nameItems name) =
      name.wireComponents.flatMap (Form.flexible.element componentType) := Form.elements_map _ _ _
  have hall := @length_element_le nameType (by decide) (Form.flexible.elements (nameItems name))
  rw [hsuite, hthunk, hnfn] at hmarkers
  simp only [nameItem, hitems, Form.elements_cons, Form.elements_nil, List.append_nil,
    Name.wireComponents, List.flatMap_append, List.length_append] at hall ⊢
  omega

/-- There is room for every interest. -/
theorem length_interest_le (hsuite : name.suite = .ndn) {o : InterestOptions}
    (hnonce : ∀ nonce ∈ o.nonce, nonce.length = 4) :
    (Form.flexible.element interestType (Form.flexible.elements (interestItems name o))).length ≤
      Write.roomFor name 0 := by
  have hname := length_nameItem_le hsuite
  have hfour : (o.nonce.getD (derivedNonce name o)).length = 4 := by
    cases h : o.nonce with
    | none => exact length_bigEndian 4 _
    | some nonce => exact hnonce nonce h
  have hasked := @length_element_of_lt nonceType (by decide) (o.nonce.getD (derivedNonce name o))
    (by omega)
  have hnumber : ∀ type, type < 253 → ∀ value : Option UInt64, (value.elim [] fun n =>
      Form.flexible.element type (nonNegativeBytes n.toNat)).length ≤ 10 := fun type htype value =>
    length_optional_le value fun n _ => length_numberElement_le htype n.toNat
  have hlifetime := hnumber lifetimeType (by decide) o.lifetime
  have hscope : ((writtenScope o).elim [] fun n =>
      Form.flexible.element scopeType (nonNegativeBytes n.toNat)).length ≤ 10 :=
    length_optional_le _ fun n _ => length_numberElement_le (by decide) n.toNat
  have hmin := hnumber minSuffixType (by decide) o.minSuffix
  have hmax := hnumber maxSuffixType (by decide) o.maxSuffix
  have hfresh : ((if o.mustBeFresh then some () else none : Option Unit).elim [] fun _ =>
      Form.flexible.element mustBeFreshType []).length ≤ 2 :=
    length_optional_le _ fun _ _ => Nat.le_refl 2
  have hselectors : (Form.flexible.elements (selectorItems o)).length ≤ 22 := by
    simp only [selectorItems, Form.elements_append, Form.elements_optional, List.length_append]
    omega
  have hfield : (Form.flexible.elements (selectorsItems o)).length ≤ 24 := by
    have helement := @length_element_of_lt selectorsType (by decide)
      (Form.flexible.elements (selectorItems o)) (by omega)
    unfold selectorsItems
    split
    · simp only [Form.elements_cons, Form.elements_nil, List.append_nil, helement]
      omega
    · exact Nat.zero_le 24
  have hall := @length_element_le interestType (by decide)
    (Form.flexible.elements (interestItems name o))
  rw [Write.roomFor_eq]
  simp only [interestItems, travelItems, Form.elements_cons, Form.elements_nil, List.append_nil,
    Form.elements_append, Form.elements_optional, List.length_append, hasked, hfour,
    Write.flatAllowance, Write.componentAllowance] at hname hall ⊢
  omega

/-- There is room for every content. -/
theorem length_content_le (hsuite : name.suite = .ndn) (payload : Bytes) (o : ContentOptions) :
    (Form.flexible.element dataType (Form.flexible.elements (contentItems name payload o))).length ≤
      Write.roomFor name payload.length := by
  have hname := length_nameItem_le hsuite
  have hblock : ∀ block, (finalBlockBytes block).length ≤ 11 := by
    intro block
    have hnumber := length_nonNegativeBytes_le block.toNat
    rw [finalBlockBytes, length_element_of_lt (by decide) (by rw [List.length_cons]; omega),
      List.length_cons]
    omega
  have hfinal : (o.finalBlock.elim [] fun block =>
      Form.flexible.element finalBlockType (finalBlockBytes block)).length ≤ 13 := by
    refine length_optional_le _ fun block _ => ?_
    have hlength := hblock block
    rw [length_element_of_lt (by decide) (by omega)]
    omega
  have hfreshness : (o.freshness.elim [] fun n =>
      Form.flexible.element freshnessType (nonNegativeBytes n.toNat)).length ≤ 10 :=
    length_optional_le _ fun n _ => length_numberElement_le (by decide) n.toNat
  have hmeta : (Form.flexible.elements (metaItems o)).length ≤ 23 := by
    simp only [metaItems, Form.elements_append, Form.elements_optional, List.length_append]
    omega
  have hinfo := @length_element_of_lt metaInfoType (by decide) (Form.flexible.elements (metaItems o))
    (by omega)
  have hpayload := @length_element_le payloadType (by decide) payload
  have hkind : (Form.flexible.element signatureInfoType
    (Form.flexible.element signatureKindType (nonNegativeBytes digestSignature))).length = 5 := rfl
  have hvalue : (Form.flexible.element signatureValueType []).length = 2 := rfl
  have hall := @length_element_le dataType (by decide)
    (Form.flexible.elements (contentItems name payload o))
  rw [Write.roomFor_eq]
  simp only [contentItems, Form.elements_cons, Form.elements_nil, List.append_nil,
    List.length_append, hinfo, hkind, hvalue, Write.flatAllowance,
    Write.componentAllowance] at hname hall ⊢
  omega

end Ndn

/-! ## Lengths of sixteen bits -/

/-- Framed markers take sixteen bytes at most. -/
theorem Name.length_flatten_wireComponents_le (name : Name) :
    name.wireComponents.flatten.length ≤ name.components.flatten.length + 16 := by
  have hmarkers := name.length_markers_le id
  have hthunk := Component.length_marker_le name.suite Component.thunkWord
  have hnfn := Component.length_marker_le name.suite Component.nfnWord
  simp only [Component.thunkWord, Component.nfnWord, List.length_cons, List.length_nil] at hthunk hnfn
  simp only [id, List.flatMap_id, Component.thunkWord, Component.nfnWord] at hmarkers
  rw [wireComponents, List.flatten_append, List.length_append]
  omega

/-- How many bytes a suite with lengths of sixteen bits writes for the number of the last chunk. -/
def Suite.finalBlockLength : Suite → Option UInt32 → Nat
  | ccnx, some block => (minimalBigEndian block.toNat).length + 4
  | cisco, some _ => 8
  | _, _ => 0

theorem Suite.finalBlockLength_le (suite : Suite) (block : Option UInt32) :
    suite.finalBlockLength block ≤ 12 := by
  cases suite <;> cases block <;> try exact Nat.zero_le 12
  · rename_i block
    have hdigits := length_minimalBigEndian_le block.toNat
    rw [finalBlockLength]
    omega
  · exact (by decide : 8 ≤ 12)

namespace Ccnx

variable (name : Name)

theorem length_interestItem :
    (Form.fixed.element interestType (Form.fixed.elements [nameItem name])).length +
      FixedHeader.size = 16 + name.wireComponents.flatten.length := by
  simp only [Form.length_element, Form.elements_cons, Form.elements_nil, List.append_nil, nameItem,
    Form.length_bytes_fixed, FixedHeader.size]
  omega

theorem length_interest_le (o : InterestOptions) :
    (interestBytes name o).length ≤ Write.roomFor name 0 := by
  have hname := name.length_flatten_wireComponents_le
  rw [Write.roomFor_eq, interestBytes, packetBytes, FixedHeader.length_packet, length_interestItem]
  simp only [Write.flatAllowance]
  omega

theorem length_contentItems (payload : Bytes) (o : ContentOptions) :
    (Form.fixed.element objectType (Form.fixed.elements (contentItems name payload o))).length +
        FixedHeader.size =
      20 + name.wireComponents.flatten.length + Suite.ccnx.finalBlockLength o.finalBlock +
        payload.length := by
  have hfinal : (Form.fixed.elements (chunkItems o)).length =
      Suite.ccnx.finalBlockLength o.finalBlock := by
    rw [chunkItems, Form.elements_optional]
    cases o.finalBlock with
    | none => rfl
    | some block => simp [Form.length_element, Suite.finalBlockLength, Nat.add_comm]
  simp only [contentItems, nameItem, Form.length_element, Form.elements_cons, Form.elements_append,
    Form.elements_nil, List.append_nil, List.length_append, Form.length_bytes_fixed, hfinal,
    FixedHeader.size]
  omega

theorem length_content_le (payload : Bytes) (o : ContentOptions) (hopLimit : UInt8) :
    (packetBytes contentPacket hopLimit objectType (contentItems name payload o)).length ≤
      Write.roomFor name payload.length := by
  have hname := name.length_flatten_wireComponents_le
  have hfinal := Suite.ccnx.finalBlockLength_le o.finalBlock
  rw [Write.roomFor_eq, packetBytes, FixedHeader.length_packet, length_contentItems]
  simp only [Write.flatAllowance]
  omega

end Ccnx

namespace Cisco

variable (name : Name)

theorem length_interestItem :
    (Form.fixed.element interestType (Form.fixed.elements [nameItem name])).length +
      FixedHeader.size = 16 + name.wireComponents.flatten.length := by
  simp only [Form.length_element, Form.elements_cons, Form.elements_nil, List.append_nil, nameItem,
    Form.length_bytes_fixed, FixedHeader.size]
  omega

theorem length_interest_le (o : InterestOptions) :
    (interestBytes name o).length ≤ Write.roomFor name 0 := by
  have hname := name.length_flatten_wireComponents_le
  have hswitch : (Switch.header .cisco).length = 2 := rfl
  rw [Write.roomFor_eq, interestBytes, packetBytes, List.length_append, FixedHeader.length_packet,
    hswitch, length_interestItem]
  simp only [Write.flatAllowance]
  omega

theorem length_contentItems (payload : Bytes) (o : ContentOptions) :
    (Form.fixed.element contentType (Form.fixed.elements (contentItems name payload o))).length +
        FixedHeader.size =
      20 + name.wireComponents.flatten.length + Suite.cisco.finalBlockLength o.finalBlock +
        payload.length := by
  have hfinal : (Form.fixed.elements (segmentItems o)).length =
      Suite.cisco.finalBlockLength o.finalBlock := by
    rw [segmentItems, Form.elements_optional]
    cases o.finalBlock with
    | none => rfl
    | some block => simp [Form.length_element, Suite.finalBlockLength]
  simp only [contentItems, nameItem, Form.length_element, Form.elements_cons, Form.elements_append,
    Form.elements_nil, List.append_nil, List.length_append, Form.length_bytes_fixed, hfinal,
    FixedHeader.size]
  omega

theorem length_content_le (payload : Bytes) (o : ContentOptions) (hopLimit : UInt8) :
    (Switch.header .cisco ++
      packetBytes contentPacket hopLimit contentType (contentItems name payload o)).length ≤
        Write.roomFor name payload.length := by
  have hname := name.length_flatten_wireComponents_le
  have hfinal := Suite.cisco.finalBlockLength_le o.finalBlock
  have hswitch : (Switch.header .cisco).length = 2 := rfl
  rw [Write.roomFor_eq, packetBytes, List.length_append, FixedHeader.length_packet, hswitch,
    length_contentItems]
  simp only [Write.flatAllowance]
  omega

end Cisco

/-! ## IOT -/

namespace Iot

variable {name : Name}

/-- The head of an element that is too long for 32 bits has eleven bytes. -/
theorem length_element_of_le {type : Nat} (htype : type < 253) {value : Bytes}
    (hvalue : 2 ^ 32 ≤ value.length) :
    (Form.compact.element type value).length = value.length + 11 := by
  have hlong : ¬(type < 4 ∧ value.length < 64 ∧ (type, value.length) ≠ (0, 0) ∧
      (type, value.length) ≠ (2, 0)) := by omega
  have hlength : (varNumberBytes value.length).length = 9 := by
    unfold varNumberBytes
    rw [if_neg (by omega), if_neg (by omega), if_neg (by omega), List.length_cons, length_bigEndian]
  simp only [Form.length_element, Form.compact, Form.compactBytes, if_neg hlong, Form.flexibleBytes,
    List.length_cons, List.length_append, length_varNumberBytes_of_lt htype, hlength]
  omega

/-- The bytes of components. -/
def componentsBytes (wires : List Bytes) : Bytes :=
  wires.flatMap (Form.compact.element componentType)

theorem elements_nameItems (name : Name) : Form.compact.elements (nameItems name) =
    componentsBytes name.components ++ componentsBytes name.markers := by
  rw [nameItems, Form.elements_map, Name.wireComponents, List.flatMap_append]
  rfl

theorem length_componentsBytes_le (wires : List Bytes) :
    (componentsBytes wires).length ≤ wires.flatten.length + wires.length * 11 :=
  Write.length_flatMap_le fun wire _ => (length_element_le (by decide) wire).1

/-- One component whose length fits 32 bits saves four bytes. -/
theorem length_componentsBytes_of_mem {wires : List Bytes} {wire : Bytes} (hwire : wire ∈ wires)
    (hshort : wire.length < 2 ^ 32) :
    (componentsBytes wires).length + 4 ≤ wires.flatten.length + wires.length * 11 := by
  obtain ⟨front, back, rfl⟩ := List.append_of_mem hwire
  have hfront := length_componentsBytes_le front
  have hback := length_componentsBytes_le back
  have hone := (length_element_le (by decide : componentType < 253) wire).2 hshort
  simp only [componentsBytes, List.flatMap_append, List.flatMap_cons, List.flatten_append,
    List.flatten_cons, List.length_append, List.length_cons] at hfront hback ⊢
  omega

theorem length_componentsBytes_of_le {wires : List Bytes}
    (h : ∀ wire ∈ wires, 2 ^ 32 ≤ wire.length) :
    (componentsBytes wires).length = wires.flatten.length + wires.length * 11 := by
  induction wires with
  | nil => rfl
  | cons wire wires ih =>
    have hone := length_element_of_le (by decide : componentType < 253) (h wire List.mem_cons_self)
    have hrest := ih fun w hw => h w (List.mem_cons_of_mem wire hw)
    simp only [componentsBytes, List.flatMap_cons, List.flatten_cons, List.length_append,
      List.length_cons] at hrest ⊢
    omega

/-- Both markers take ten bytes, anything else takes four at most. -/
theorem length_markerBytes (hsuite : name.suite = .iot) :
    (componentsBytes name.markers).length ≤ 4 ∨
      name.flags.nfn = true ∧ name.flags.thunk = true ∧
        (componentsBytes name.markers).length = 10 := by
  unfold Name.markers
  rw [hsuite]
  cases name.flags.nfn with
  | false => exact .inl (Nat.zero_le 4)
  | true =>
    cases name.flags.thunk with
    | false => exact .inl (Nat.le_refl 4)
    | true => exact .inr ⟨rfl, rfl, rfl⟩

theorem length_markerBytes_of_flags (hsuite : name.suite = .iot) (hnfn : name.flags.nfn = true)
    (hthunk : name.flags.thunk = true) : (componentsBytes name.markers).length = 10 := by
  rw [Name.markers, hsuite, hnfn, hthunk]
  rfl

/-- There is room for every interest. -/
theorem length_interest_le (hsuite : name.suite = .iot)
    (hsize : name.components.length ≤ maxComponents) (ttl : UInt8) :
    (interestBytes name ttl).length ≤ Write.roomFor name 0 := by
  have hown := length_componentsBytes_le name.components
  have hmarkers : (componentsBytes name.markers).length ≤ 10 := by
    rcases length_markerBytes hsuite with hfew | ⟨-, -, hboth⟩ <;> omega
  have hswitch : switch.length = 2 := rfl
  have hhop : (Form.compact.element optionalHeaderType
    (Form.compact.element hopLimitType [ttl])).length = 3 := rfl
  have hpath := (length_element_le (by decide : pathNameType < 253)
    (Form.compact.elements (nameItems name))).1
  have hname := (length_element_le (by decide : nameType < 253)
    (Form.compact.element pathNameType (Form.compact.elements (nameItems name)))).1
  have hall := (length_element_le (by decide : requestType < 253)
    (Form.compact.elements (interestItems name ttl))).1
  rw [Write.roomFor_eq]
  simp only [interestBytes, interestItems, nameItem, elements_nameItems, Form.elements_cons,
    Form.elements_nil, List.append_nil, List.length_append, hswitch, hhop, maxComponents,
    Write.flatAllowance, Write.componentAllowance] at hpath hname hall hsize ⊢
  omega

/-- A content finds no room exactly if the name has both markers and more than 61 components, and
    the lengths of the payload and of every component need more than 32 bits. -/
theorem roomFor_lt_content_iff (hsuite : name.suite = .iot)
    (hsize : name.components.length ≤ maxComponents) (payload : Bytes) :
    Write.roomFor name payload.length < (contentBytes name payload).length ↔
      name.flags.nfn = true ∧ name.flags.thunk = true ∧ 62 ≤ name.components.length ∧
        2 ^ 32 ≤ payload.length ∧ ∀ wire ∈ name.components, 2 ^ 32 ≤ wire.length := by
  have hswitch : switch.length = 2 := rfl
  have hown := length_componentsBytes_le name.components
  have hdata := length_element_le (by decide : dataType < 253) payload
  have hpayload := (length_element_le (by decide : payloadType < 253)
    (Form.compact.element dataType payload)).1
  have hpath := (length_element_le (by decide : pathNameType < 253)
    (Form.compact.elements (nameItems name))).1
  have hname := (length_element_le (by decide : nameType < 253)
    (Form.compact.element pathNameType (Form.compact.elements (nameItems name)))).1
  have hall := (length_element_le (by decide : replyType < 253)
    (Form.compact.elements (contentItems name payload))).1
  rw [Write.roomFor_eq]
  simp only [contentBytes, contentItems, nameItem, Form.elements_cons, Form.elements_nil,
    List.append_nil, List.length_append, hswitch, maxComponents, Write.flatAllowance,
    Write.componentAllowance] at hall hsize ⊢
  have hitems : (Form.compact.elements (nameItems name)).length =
      (componentsBytes name.components).length + (componentsBytes name.markers).length := by
    rw [elements_nameItems, List.length_append]
  constructor
  · intro hlong
    rcases length_markerBytes hsuite with hfew | ⟨hnfn, hthunk, hboth⟩
    · omega
    · refine ⟨hnfn, hthunk, by omega, ?_, fun wire hwire => ?_⟩
      · by_contra hshort
        have hless := hdata.2 (Nat.lt_of_not_le hshort)
        omega
      · by_contra hshort
        have hless := length_componentsBytes_of_mem hwire (Nat.lt_of_not_le hshort)
        omega
  · rintro ⟨hnfn, hthunk, hmany, hlarge, hwires⟩
    -- One long component makes all heads around it long.
    obtain ⟨wire, rest, hcomponents⟩ := List.exists_cons_of_length_pos
      (Nat.lt_of_lt_of_le (by decide : 0 < 62) hmany)
    have hwire : wire ∈ name.components := hcomponents ▸ List.mem_cons_self
    have hitem : (componentType, wire) ∈ nameItems name :=
      List.mem_map_of_mem (List.mem_append_left _ hwire)
    have hlong := Nat.le_trans (hwires wire hwire) (Form.compact.length_le_elements hitem)
    have hpath' := length_element_of_le (by decide : pathNameType < 253) hlong
    have hname' := @length_element_of_le nameType (by decide)
      (Form.compact.element pathNameType (Form.compact.elements (nameItems name))) (by omega)
    have hdata' := length_element_of_le (by decide : dataType < 253) hlarge
    have hpayload' := @length_element_of_le payloadType (by decide)
      (Form.compact.element dataType payload) (by omega)
    have hfields : (Form.compact.elements (contentItems name payload)).length =
        (Form.compact.element nameType (Form.compact.element pathNameType
          (Form.compact.elements (nameItems name)))).length +
        (Form.compact.element payloadType (Form.compact.element dataType payload)).length := by
      simp [contentItems, nameItem]
    have hall' := @length_element_of_le replyType (by decide)
      (Form.compact.elements (contentItems name payload)) (by omega)
    have howns := length_componentsBytes_of_le hwires
    have hmarkers := length_markerBytes_of_flags hsuite hnfn hthunk
    rw [hfields] at hall'
    simp only [contentItems, nameItem, Form.elements_cons, Form.elements_nil,
      List.append_nil] at hall'
    omega

end Iot

/-! ## Every suite -/

namespace Suite

section

variable {name : Name} (hsize : name.components.length ≤ maxComponents)
  (hcomponents : ∀ wire ∈ name.components, wire.length < 2 ^ 40)
include hsize hcomponents

/-- When an interest cannot be encoded, and why. -/
theorem encodeInterest_error_iff {asked : InterestOptions}
    (hnonce : ∀ nonce ∈ asked.nonce, nonce.length = 4) (e : EncodeError) :
    name.suite.encodeInterest name asked = .error e ↔
      e = .valueTooLong ∧ (name.suite = .ccnx ∨ name.suite = .cisco) ∧
          0x10000 ≤ 16 + name.wireComponents.flatten.length ∨
        e = .bufferTooShort ∧ name.suite = .ccnb ∧ ∃ key ∈ asked.publisherKey,
          Ccnb.roomForKey name asked <
            (Ccnb.fieldBytes Ccnb.publisherKeyTag Ccnb.blobKind key).length := by
  have hwires : ∀ wire ∈ name.components, wire.length < 2 ^ 53 := fun wire hwire =>
    Nat.lt_trans (hcomponents wire hwire) (by decide)
  cases hsuite : name.suite with
  | ccnb =>
    have hresult := (Ccnb.result_encodeInterest name asked).eq_error_iff_of_fits trivial e
    rw [Ccnb.roomFor_lt_interest_iff hsuite hwires hnonce] at hresult
    exact hresult.trans (by simp)
  | ccnx =>
    have hresult := (Ccnx.result_encodeInterest name asked).eq_error_iff_of_room
      (Ccnx.length_interest_le name asked) e
    rw [Ccnx.length_interestItem, Nat.not_lt] at hresult
    exact hresult.trans (by simp)
  | cisco =>
    have hresult := (Cisco.result_encodeInterest name asked).eq_error_iff_of_room
      (Cisco.length_interest_le name asked) e
    rw [Cisco.length_interestItem, Nat.not_lt] at hresult
    exact hresult.trans (by simp)
  | iot =>
    have hresult := (Iot.result_encodeInterest name asked).eq_error_iff_of_room
      (Iot.length_interest_le hsuite hsize _) e
    exact hresult.trans (by simp)
  | ndn =>
    have hresult := (Ndn.result_encodeInterest name asked).eq_error_iff_of_room
      (Ndn.length_interest_le hsuite hnonce) e
    exact hresult.trans (by simp)

/-- When a content cannot be encoded, and why. -/
theorem encodeContent_error_iff {payload : Bytes} (hpayload : payload.length < 2 ^ 40)
    (o : ContentOptions) (e : EncodeError) :
    name.suite.encodeContent name payload o = .error e ↔
      e = .valueTooLong ∧ (name.suite = .ccnx ∨ name.suite = .cisco) ∧
          0x10000 ≤ 20 + name.wireComponents.flatten.length +
            name.suite.finalBlockLength o.finalBlock + payload.length ∨
        e = .bufferTooShort ∧ name.suite = .iot ∧ name.flags.nfn = true ∧ name.flags.thunk = true ∧
          62 ≤ name.components.length ∧ 2 ^ 32 ≤ payload.length ∧
            ∀ wire ∈ name.components, 2 ^ 32 ≤ wire.length := by
  have hwires : ∀ wire ∈ name.components, wire.length < 2 ^ 53 := fun wire hwire =>
    Nat.lt_trans (hcomponents wire hwire) (by decide)
  cases hsuite : name.suite with
  | ccnb =>
    have hresult := (Ccnb.result_encodeContent name payload o).eq_error_iff_of_room
      (Ccnb.length_content_le hsuite hwires (Nat.lt_trans hpayload (by decide)) o) e
    exact hresult.trans (by simp)
  | ccnx =>
    have hresult := (Ccnx.result_encodeContent name payload o).eq_error_iff_of_room
      (Ccnx.length_content_le name payload o _) e
    rw [Ccnx.length_contentItems, Nat.not_lt] at hresult
    exact hresult.trans (by simp)
  | cisco =>
    have hresult := (Cisco.result_encodeContent name payload o).eq_error_iff_of_room
      (Cisco.length_content_le name payload o _) e
    rw [Cisco.length_contentItems, Nat.not_lt] at hresult
    exact hresult.trans (by simp)
  | iot =>
    have hresult := (Iot.result_encodeContent name payload o).eq_error_iff_of_fits trivial e
    rw [Iot.roomFor_lt_content_iff hsuite hsize] at hresult
    exact hresult.trans (by simp)
  | ndn =>
    have hresult := (Ndn.result_encodeContent name payload o).eq_error_iff_of_room
      (Ndn.length_content_le hsuite payload o) e
    exact hresult.trans (by simp)

end

/-- An encoder runs out of room only for an interest of CCNB whose publisher key is longer than the
    room that is left for it, and for a content of IOT with both markers, more than 61 components
    and lengths that all need more than 32 bits. Otherwise it fails only where lengths have sixteen
    bits and the packet is longer. -/
theorem encode_fails_iff {name : Name} (hsize : name.components.length ≤ maxComponents)
    (hcomponents : ∀ wire ∈ name.components, wire.length < 2 ^ 40) {payload : Bytes}
    (hpayload : payload.length < 2 ^ 40) {asked : InterestOptions}
    (hnonce : ∀ nonce ∈ asked.nonce, nonce.length = 4) (o : ContentOptions) (e : EncodeError) :
    (name.suite.encodeInterest name asked = .error e ↔
      e = .valueTooLong ∧ (name.suite = .ccnx ∨ name.suite = .cisco) ∧
          0x10000 ≤ 16 + name.wireComponents.flatten.length ∨
        e = .bufferTooShort ∧ name.suite = .ccnb ∧ ∃ key ∈ asked.publisherKey,
          Ccnb.roomForKey name asked <
            (Ccnb.fieldBytes Ccnb.publisherKeyTag Ccnb.blobKind key).length) ∧
    (name.suite.encodeContent name payload o = .error e ↔
      e = .valueTooLong ∧ (name.suite = .ccnx ∨ name.suite = .cisco) ∧
          0x10000 ≤ 20 + name.wireComponents.flatten.length +
            name.suite.finalBlockLength o.finalBlock + payload.length ∨
        e = .bufferTooShort ∧ name.suite = .iot ∧ name.flags.nfn = true ∧ name.flags.thunk = true ∧
          62 ≤ name.components.length ∧ 2 ^ 32 ≤ payload.length ∧
            ∀ wire ∈ name.components, 2 ^ 32 ≤ wire.length) :=
  ⟨encodeInterest_error_iff hsize hcomponents hnonce e,
    encodeContent_error_iff hsize hcomponents hpayload o e⟩

/-- An interest in one page, with a publisher key of so many bytes. -/
def keyed (length : Nat) : InterestOptions := { publisherKey := some (List.replicate length 7) }

/-- A key of 32 bytes finds room beside a short name, a key of 200 bytes does not. -/
theorem long_key_finds_no_room :
    let page : Name := ⟨.ccnb, [[0x61]], none, .none⟩
    (∀ e, Suite.ccnb.encodeInterest page (keyed 32) ≠ .error e) ∧
      Suite.ccnb.encodeInterest page (keyed 200) = .error .bufferTooShort := by
  intro page
  have hfails := fun length => @encode_fails_iff page (by decide) (by decide) [] (by decide)
    (keyed length) (by rintro _ ⟨⟩) {}
  have hroom : Write.roomFor page 0 = 139 := rfl
  constructor
  · intro e hfailed
    obtain ⟨-, hframed, -⟩ | ⟨-, -, key, hkey, hlong⟩ := (hfails 32 e).1.1 hfailed
    · exact absurd hframed (by decide)
    · cases hkey
      exact absurd hlong (Nat.not_lt_of_le (Ccnb.length_keyField_le rfl (by decide)
        (by rintro _ ⟨⟩) (by decide)))
  · refine (hfails 200 _).1.2 (.inr ⟨rfl, rfl, _, rfl, ?_⟩)
    have hfield := Ccnb.length_le_fieldBytes Ccnb.publisherKeyTag Ccnb.blobKind
      (List.replicate 200 7)
    rw [List.length_replicate] at hfield
    rw [Ccnb.roomForKey, hroom]
    omega

end Suite

end NameRelay
