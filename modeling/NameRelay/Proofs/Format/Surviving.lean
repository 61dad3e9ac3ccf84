-- SUMMARY: A name that survives in a content survives in an interest too.
import NameRelay.Proofs.Format.Ccnb.Limits
import NameRelay.Proofs.Format.RoundTrip
import NameRelay.Relay.Publish

/-!
# Names that survive

A writer takes any name, also one whose components do not have the form of its suite, and what is
read may then be another name, or only a part of what was written. A name survives in a content if
the content is read whole and under the same name. Names that are restorable do, but they are not
all: how a component reads can hang on the ones beside it.

Whoever publishes a content wants to ask for it. In a suite with chunks this takes nothing more: if
a name survives in some content, an interest with the name can be written and asks for this name.
-/

namespace NameRelay

/-- A content with the name is read whole, and under the name it was written with. -/
def Name.Survives (name : Name) (payload : Bytes) (o : ContentOptions) : Prop :=
  ∀ wire, name.suite.encodeContent name payload o = .ok wire → ∃ packet : Packet,
    name.suite.decodeBehindSwitch wire = .ok (packet, (Switch.dropFrom wire).length) ∧
      packet.name? = some name

instance (name : Name) (payload : Bytes) (o : ContentOptions) :
    Decidable (name.Survives payload o) :=
  match hok : name.suite.encodeContent name payload o with
  | .error _ => .isTrue fun _ h => nomatch hok.symm.trans h
  | .ok wire =>
    match hread : name.suite.decodeBehindSwitch wire with
    | .error _ => .isFalse fun h => by
      obtain ⟨_, hwhole, -⟩ := h wire hok
      cases hread.symm.trans hwhole
    | .ok (packet, n) =>
      decidable_of_iff (n = (Switch.dropFrom wire).length ∧ packet.name? = some name) <| by
        constructor
        · rintro ⟨rfl, hname⟩ _ h
          cases hok.symm.trans h
          exact ⟨packet, hread, hname⟩
        · intro h
          obtain ⟨_, hwhole, hname⟩ := h wire hok
          cases hread.symm.trans hwhole
          exact ⟨rfl, hname⟩

/-- A name that can be restored survives in every content that is written with it. -/
theorem Name.Restorable.survives {name : Name} (h : name.Restorable)
    (hcomponents : ∀ wire ∈ name.components, wire.length < 2 ^ 53) {payload : Bytes}
    (hpayload : payload.length < 2 ^ 53) (o : ContentOptions) : name.Survives payload o := by
  intro wire hok
  obtain ⟨packet, hread, -, ⟨span, hbody⟩, -⟩ :=
    Suite.content_roundTrip h hcomponents hpayload hok
  exact ⟨packet, hread, by rw [Packet.name?, hbody]⟩

/-! ## Room for an interest -/

namespace Component

theorem length_marker_le (suite : Suite) (word : Bytes) :
    (marker suite word).length ≤ word.length + 4 := by
  rw [marker]
  split
  · simp [frame]
    omega
  · omega

end Component

/-- Room for a name is room for all that is written for it, and for some more. -/
theorem Write.length_components_le (name : Name) (out : Bytes → Bytes)
    (hout : ∀ wire ∈ name.wireComponents,
      (out wire).length ≤ wire.length + componentAllowance) :
    (name.wireComponents.flatMap out).length + 92 ≤ roomFor name 0 := by
  have hmarkers : name.markers.flatten.length + name.markers.length * componentAllowance ≤ 36 := by
    have hnfn := Component.length_marker_le name.suite Component.nfnWord
    have hthunk := Component.length_marker_le name.suite Component.thunkWord
    simp only [Component.nfnWord, Component.thunkWord, List.length_cons,
      List.length_nil] at hnfn hthunk
    unfold Name.markers
    split
    · split <;> simp [componentAllowance, Component.nfnWord, Component.thunkWord] <;> omega
    · simp
  have hall := length_flatMap_le hout
  rw [roomFor_eq]
  simp only [Name.wireComponents, List.flatten_append, List.length_append, Nat.add_mul,
    flatAllowance] at hall hmarkers ⊢
  omega

/-! ## What was read -/

/-- If what was read has the name that was written, the name was reread as itself. -/
theorem eq_of_map_packet {reread : Except DecodeError Name} {packetOf : Name → Packet}
    {length n : Nat} {packet : Packet} {name : Name}
    (h : (reread.map fun read => (packetOf read, length)) = .ok (packet, n))
    (hname : packet.name? = some name) (hnames : ∀ read, (packetOf read).name? = some read) :
    reread = .ok name ∧ packet = packetOf name := by
  cases reread with
  | error e => cases h
  | ok read =>
    cases h
    cases (hnames read).symm.trans hname
    exact ⟨rfl, rfl⟩

theorem ok_of_mapError {ε φ α : Type} {x : Except ε α} {f : ε → φ} {a : α}
    (h : x.mapError f = .ok a) : x = .ok a := by
  cases x with
  | error e => cases h
  | ok b =>
    cases h
    rfl

theorem Switch.drop_eq {wire : Bytes} {switched : Option (Suite × Nat)}
    (h : Switch.read? wire = .ok switched) :
    wire.drop (switched.elim 0 (·.2)) = Switch.dropFrom wire := by
  rw [Switch.dropFrom, h]
  cases switched <;> rfl

namespace Suite

/-- A packet of the suite is read back if it is read behind its switch. -/
theorem readBack_of_decode {suite : Suite} {wire : Bytes} {switched : Option (Suite × Nat)}
    (hswitch : Switch.read? wire = .ok switched) {packet : Packet} {n : Nat}
    (hread : suite.decode (Switch.dropFrom wire) = .ok (packet, n))
    (hsuite : packet.suite = suite) : suite.readBack wire = .ok packet := by
  simp only [readBack, hswitch, Except.mapError, bind, Except.bind, Switch.drop_eq hswitch, hread,
    hsuite, if_true, pure, Except.pure]

/-- What is read back is what is read behind the switch. -/
theorem decode_of_readBack {suite : Suite} {wire : Bytes} {packet : Packet}
    (h : suite.readBack wire = .ok packet) :
    (∃ n, suite.decodeBehindSwitch wire = .ok (packet, n)) ∧ packet.suite = suite := by
  obtain ⟨switched, hswitch, hrest⟩ := ok_of_bind h
  obtain ⟨⟨read, n⟩, hread, hend⟩ := ok_of_bind hrest
  rw [Switch.drop_eq (ok_of_mapError hswitch)] at hread
  by_cases hsuite : read.suite = suite
  · simp only [hsuite, if_true] at hend
    cases hend
    exact ⟨⟨n, ok_of_mapError hread⟩, hsuite⟩
  · simp only [hsuite, if_false] at hend
    cases hend

end Suite

/-! ## CCNB -/

namespace Ccnb

variable {name : Name} {payload bytes : Bytes} {o : ContentOptions} {packet : Packet} {n : Nat}

theorem survives_content (hsuite : name.suite = .ccnb)
    (hok : encodeContent name payload o = .ok bytes)
    (hread : decode (Switch.dropFrom bytes) = .ok (packet, n)) (hname : packet.name? = some name) :
    packet.content? = some payload ∧ name.reread = .ok name ∧
      ∀ wire ∈ name.wireComponents, wire.length < 2 ^ 53 := by
  have hbytes := encodeContent_eq_ok hok
  have hlimits := hread
  rw [hbytes, dropFrom_packetBytes (.inr rfl)] at hlimits
  obtain ⟨⟨read, hreread⟩, hwires, hpayload⟩ := limits_of_decode hsuite hlimits
  obtain ⟨span, hdecode, hspan⟩ := decode_content hreread hsuite hwires hpayload hok
  cases hdecode.symm.trans hread
  cases hname
  exact ⟨congrArg some hspan, hreread, hwires⟩

theorem length_component_le {wire : Bytes} (h : wire.length < 2 ^ 53) :
    (fieldBytes componentTag blobKind wire).length ≤ wire.length + Write.componentAllowance := by
  have hhigh := @length_highBits_le (wire.length / 16) 7 (by omega)
  have htag : highBits (componentTag / 16) = [] := by simp [highBits, componentTag]
  simp only [fieldBytes, dataBytes, headerBytes, htag, List.length_append, List.length_singleton,
    List.length_nil, Write.componentAllowance]
  omega

/-- There is room for an interest that asks for little, if no component is too long. -/
theorem encodeInterest_of_wires (hwires : ∀ wire ∈ name.wireComponents, wire.length < 2 ^ 53)
    {asked : InterestOptions} (hasked : (selectorBytes asked).length ≤ 64) :
    encodeInterest name asked =
      .ok (packetBytes interestTag (nameBytes name ++ selectorBytes asked)) := by
  have hroom := Write.length_components_le name (fieldBytes componentTag blobKind)
    fun wire hwire => length_component_le (hwires wire hwire)
  refine (encodeInterest_eq_ok_iff name _ _).2 ⟨?_, rfl⟩
  have hinterest : (headerBytes interestTag tagKind).length = 2 := by
    simp [headerBytes, highBits, interestTag]
  have hname : (headerBytes nameTag tagKind).length = 1 := by
    simp [headerBytes, highBits, nameTag]
  simp only [packetBytes, nameBytes, componentsBytes, List.length_append, List.length_singleton,
    hinterest, hname]
  omega

theorem length_selectorBytes_nonce {nonce : Bytes} (hnonce : nonce.length = 4) :
    (selectorBytes { nonce := some nonce }).length = 8 := by
  have htag : (headerBytes nonceTag tagKind).length = 2 := by
    simp [headerBytes, highBits, nonceTag]
  have hdata : (headerBytes 4 blobKind).length = 1 := by
    simp [headerBytes, highBits]
  simp only [selectorBytes, fieldBytes, dataBytes, Option.elim, hnonce, List.length_append,
    List.length_singleton, List.nil_append, htag, hdata]

end Ccnb

/-! ## CCNx -/

namespace Ccnx

open Tlv (Form)

variable {name : Name} {payload bytes : Bytes} {o : ContentOptions} {packet : Packet} {n : Nat}

theorem survives_content (hok : encodeContent name payload o = .ok bytes)
    (hread : decode (Switch.dropFrom bytes) = .ok (packet, n)) (hname : packet.name? = some name) :
    packet.content? = some payload ∧ reread name = .ok name := by
  obtain ⟨span, hdecode, hspan⟩ := decode_content hok
  obtain ⟨hreread, rfl⟩ := eq_of_map_packet (hdecode.symm.trans hread) hname fun _ => rfl
  exact ⟨congrArg some hspan, hreread⟩

/-- Where there is room for a content there is room for an interest. -/
theorem encodeInterest_of_content (hok : encodeContent name payload o = .ok bytes)
    (asked : InterestOptions) : encodeInterest name asked = .ok (interestBytes name asked) := by
  obtain ⟨-, hlength⟩ := encodeContent_eq_ok hok
  have hroom := Write.length_components_le name id fun _ _ => Nat.le_add_right _ _
  rw [List.flatMap_id] at hroom
  refine (encodeInterest_eq_ok_iff name _ asked).2 ⟨?_, ?_, rfl⟩
  · simp only [Form.length_element, Form.elements_cons, Form.elements_nil, contentItems, nameItem,
      List.length_append, List.append_nil, Form.length_bytes_fixed] at hlength ⊢
    omega
  · simp only [interestBytes, packetBytes, FixedHeader.length_packet, Form.length_element,
      Form.elements_cons, Form.elements_nil, List.append_nil, nameItem, Form.length_bytes_fixed,
      FixedHeader.size]
    omega

end Ccnx

/-! ## Cisco -/

namespace Cisco

open Tlv (Form)

variable {name : Name} {payload bytes : Bytes} {o : ContentOptions} {packet : Packet} {n : Nat}

theorem survives_content (hok : encodeContent name payload o = .ok bytes)
    (hread : decode (Switch.dropFrom bytes) = .ok (packet, n)) (hname : packet.name? = some name) :
    packet.content? = some payload ∧ reread name = .ok name := by
  obtain ⟨span, hdecode, hspan⟩ := decode_content hok
  obtain ⟨hreread, rfl⟩ := eq_of_map_packet (hdecode.symm.trans hread) hname fun _ => rfl
  exact ⟨congrArg some hspan, hreread⟩

/-- Where there is room for a content there is room for an interest. -/
theorem encodeInterest_of_content (hok : encodeContent name payload o = .ok bytes)
    (asked : InterestOptions) : encodeInterest name asked = .ok (interestBytes name asked) := by
  obtain ⟨-, hlength⟩ := encodeContent_eq_ok hok
  have hroom := Write.length_components_le name id fun _ _ => Nat.le_add_right _ _
  rw [List.flatMap_id] at hroom
  refine (encodeInterest_eq_ok_iff name _ asked).2 ⟨?_, ?_, rfl⟩
  · simp only [Form.length_element, Form.elements_cons, Form.elements_nil, contentItems, nameItem,
      List.length_append, List.append_nil, Form.length_bytes_fixed] at hlength ⊢
    omega
  · simp only [interestBytes, packetBytes, FixedHeader.length_packet, Form.length_element,
      Form.elements_cons, Form.elements_nil, List.append_nil, nameItem, Form.length_bytes_fixed,
      FixedHeader.size, List.length_append, Switch.header, List.length_cons, List.length_nil]
    omega

end Cisco

/-! ## NDN -/

namespace Ndn

open Tlv (Form)

variable {name : Name} {payload bytes : Bytes} {o : ContentOptions} {packet : Packet}

/-- A packet that is read whole has no more bytes than its length can say. -/
theorem lt_limit_of_decode {type : Nat} {value : Bytes}
    (h : decode (Form.flexible.element type value) =
      .ok (packet, (Form.flexible.element type value).length)) :
    value.length < Form.flexible.limit := by
  have hhead : Tlv.Head.flexible.read ⟨0, Form.flexible.element type value⟩ =
      .ok ((type % 2 ^ 64, value.length % 2 ^ 64),
        ⟨(Form.flexible.bytes type value.length).length, value⟩) := by
    simp only [Tlv.Head.flexible, Tlv.Head.readPair, Form.element, Form.flexible,
      Form.flexibleBytes, List.append_assoc, varNumber_varNumberBytes_mod, bind, Except.bind, pure,
      Except.pure, List.length_append, Nat.zero_add]
  obtain ⟨⟨e, next⟩, helement, hrest⟩ := ok_of_bind h
  have hend : next.pos = (Form.flexible.element type value).length := by
    dsimp only at hrest
    split at hrest
    · obtain ⟨⟨header, piece⟩, -, hend⟩ := ok_of_bind hrest
      split at hend
      · exact (Prod.mk.inj (Except.ok.inj hend)).2
      · cases hend
    · split at hrest
      · obtain ⟨draft, -, hend⟩ := ok_of_bind hrest
        split at hend
        · cases hend
        · exact (Prod.mk.inj (Except.ok.inj hend)).2
      · cases hrest
  rw [Tlv.Head.element, Cursor.ofBytes, hhead] at helement
  obtain ⟨_, hopened, hpart⟩ := ok_of_bind helement
  cases hopened
  obtain ⟨⟨part, after⟩, hsplit, hnext⟩ := ok_of_bind hpart
  cases hnext
  obtain ⟨-, -, -, hpos⟩ := Cursor.split_eq hsplit
  rw [Form.length_element, hpos] at hend
  have hmod := Nat.mod_lt value.length (by decide : 0 < 2 ^ 64)
  simp only [Form.limit_flexible]
  dsimp only at hend
  omega

theorem survives_content (hsuite : name.suite = .ndn)
    (hok : encodeContent name payload o = .ok bytes)
    (hread : decode (Switch.dropFrom bytes) = .ok (packet, (Switch.dropFrom bytes).length))
    (hname : packet.name? = some name) :
    packet.content? = some payload ∧ name.reread = .ok name ∧
      (Form.flexible.elements (contentItems name payload o)).length < Form.flexible.limit := by
  obtain ⟨rfl, -⟩ := encodeContent_eq_ok hok
  rw [dropFrom_element (.inr rfl)] at hread
  have hall := lt_limit_of_decode hread
  obtain ⟨span, hdecode, hspan⟩ := decode_content hsuite hall
  obtain ⟨hreread, rfl⟩ := eq_of_map_packet (hdecode.symm.trans hread) hname fun _ => rfl
  exact ⟨congrArg some hspan, hreread, hall⟩

theorem length_element_le {type : Nat} (htype : type < 253) (value : Bytes) :
    (Form.flexible.element type value).length ≤ value.length + 10 := by
  have hlength := length_varNumberBytes_le value.length
  simp only [Form.length_element, Form.flexible, Form.flexibleBytes, List.length_append,
    length_varNumberBytes_of_lt htype]
  omega

/-- An interest with a nonce is shorter than a content with the same name. -/
theorem length_interestItems_le (name : Name) {nonce : Bytes} (hnonce : nonce.length = 4)
    (payload : Bytes) (o : ContentOptions) :
    (Form.flexible.elements (interestItems name { nonce := some nonce })).length ≤
      (Form.flexible.elements (contentItems name payload o)).length := by
  have hasked : (Form.flexible.element nonceType nonce).length = 6 := by
    rw [Form.length_element, hnonce]
    rfl
  have hkind : (Form.flexible.element signatureInfoType
    (Form.flexible.element signatureKindType (nonNegativeBytes digestSignature))).length = 5 := rfl
  have hvalue : (Form.flexible.element signatureValueType []).length = 2 := rfl
  have hitems : interestItems name { nonce := some nonce } = [nameItem name, (nonceType, nonce)] :=
    rfl
  simp only [hitems, contentItems, Form.elements_cons, Form.elements_nil,
    List.append_nil, List.length_append, hasked, hkind, hvalue]
  omega

/-- There is room for an interest that says no more than a nonce. -/
theorem encodeInterest_of_items {asked : InterestOptions} {nonce : Bytes}
    (hitems : interestItems name asked = [nameItem name, (nonceType, nonce)])
    (hnonce : nonce.length = 4) :
    encodeInterest name asked =
      .ok (Form.flexible.element interestType (Form.flexible.elements (interestItems name asked))) := by
  have hroom := Write.length_components_le name (Form.flexible.element componentType)
    fun wire _ => length_element_le (by decide) wire
  have hcomponents : Form.flexible.elements (nameItems name) =
      name.wireComponents.flatMap (Form.flexible.element componentType) := Form.elements_map _ _ _
  rw [← hcomponents] at hroom
  refine (encodeInterest_eq_ok_iff name _ _).2 ⟨?_, rfl⟩
  have hall := @length_element_le interestType (by decide)
    (Form.flexible.elements (interestItems name asked))
  have hname := @length_element_le nameType (by decide) (Form.flexible.elements (nameItems name))
  have hasked := @length_element_le nonceType (by decide) nonce
  rw [hitems] at hall ⊢
  simp only [Form.elements_cons, Form.elements_nil, List.append_nil, List.length_append,
    nameItem] at hall ⊢
  omega

end Ndn

/-! ## IOT -/

namespace Iot

open Tlv (Form)

variable {name : Name}

/-- A head has eleven bytes at most, and fewer if the length of the value fits 32 bits. -/
theorem length_element_le {type : Nat} (htype : type < 253) (value : Bytes) :
    (Form.compact.element type value).length ≤ value.length + 11 ∧
      (value.length < 2 ^ 32 → (Form.compact.element type value).length ≤ value.length + 7) := by
  have hany := length_varNumberBytes_le value.length
  have hshort : value.length < 2 ^ 32 → (varNumberBytes value.length).length ≤ 5 := by
    intro hlt
    unfold varNumberBytes
    repeat' split
    all_goals simp
    omega
  simp only [Form.length_element, Form.compact, Form.compactBytes]
  split
  · simp only [List.length_singleton]
    omega
  · simp only [Form.flexibleBytes, List.length_cons, List.length_append,
      length_varNumberBytes_of_lt htype]
    omega

/-- There is room for an interest, if the length of every component fits 32 bits. -/
theorem encodeInterest_of_wires (hwires : ∀ wire ∈ name.wireComponents, wire.length < 2 ^ 32)
    (asked : InterestOptions) :
    encodeInterest name asked = .ok (interestBytes name (asked.hopLimit.getD defaultTtl)) := by
  refine (encodeInterest_eq_ok_iff name _ _).2 ⟨?_, rfl⟩
  generalize asked.hopLimit.getD defaultTtl = ttl
  have hroom := Write.length_components_le name (Form.compact.element componentType) <| by
    intro wire hwire
    have hwidth := (@length_element_le componentType (by decide) wire).2 (hwires wire hwire)
    exact Nat.le_trans hwidth (by simp [Write.componentAllowance])
  have hcomponents : Form.compact.elements (nameItems name) =
      name.wireComponents.flatMap (Form.compact.element componentType) := Form.elements_map _ _ _
  rw [← hcomponents] at hroom
  have hall := (@length_element_le requestType (by decide)
    (Form.compact.elements (interestItems name ttl))).1
  have hname := (@length_element_le nameType (by decide)
    (Form.compact.element pathNameType (Form.compact.elements (nameItems name)))).1
  have hpath := (@length_element_le pathNameType (by decide)
    (Form.compact.elements (nameItems name))).1
  have hheader := (@length_element_le optionalHeaderType (by decide)
    (Form.compact.element hopLimitType [ttl])).1
  have hlimit := (@length_element_le hopLimitType (by decide) [ttl]).1
  have hswitch : switch.length = 2 := rfl
  simp only [interestBytes, interestItems, nameItem, Form.elements_cons, Form.elements_nil,
    List.append_nil, List.length_append, List.length_singleton, hswitch] at hall hlimit ⊢
  omega

end Iot

/-! ## All suites -/

/-- An interest with the name can be written, and is read back as the interest that it is. -/
def Name.Asks (name : Name) (o : InterestOptions) : Prop :=
  ∃ (wire : Bytes) (d : Details), name.suite.encodeInterest name o = .ok wire ∧
    name.suite.readBack wire = .ok ⟨wire, .message .interest name none, d⟩ ∧
      d.suite = name.suite ∧ o.ToldBy d

/-- A content whose name survives in it is read back with its name and its payload, and an interest
    with a nonce asks for it. -/
theorem Name.Survives.readBack {name : Name} {payload : Bytes} {o : ContentOptions}
    (h : name.Survives payload o) (hsuite : name.suite ≠ .iot) {wire : Bytes}
    (hok : name.suite.encodeContent name payload o = .ok wire) {packet : Packet}
    (hread : name.suite.readBack wire = .ok packet) {nonce : Bytes} (hnonce : nonce.length = 4) :
    (packet.suite = name.suite ∧ packet.name? = some name ∧ packet.content? = some payload) ∧
      name.Asks { nonce := some nonce } := by
  obtain ⟨⟨n, hdecode⟩, hsame⟩ := Suite.decode_of_readBack hread
  obtain ⟨read, hwhole, hname⟩ := h wire hok
  cases hwhole.symm.trans hdecode
  rw [Suite.decodeBehindSwitch] at hdecode
  suffices packet.content? = some payload ∧ name.Asks { nonce := some nonce } from
    ⟨⟨hsame, hname, this.1⟩, this.2⟩
  have hshort : nonce.length < 2 ^ 53 := by omega
  rw [Name.Asks]
  cases hs : name.suite with
  | ccnb =>
    rw [hs] at hok hdecode
    obtain ⟨hcontent, hreread, hwires⟩ := Ccnb.survives_content hs hok hdecode hname
    have hasked := Ccnb.decode_interest hreread hs hwires (o := { nonce := some nonce })
      (fun _ hv => Option.some.inj hv ▸ hshort) (by simp)
    have hlittle := Nat.le_trans (Nat.le_of_eq (Ccnb.length_selectorBytes_nonce hnonce))
      (by decide : 8 ≤ 64)
    have hdrop := Ccnb.dropFrom_packetBytes (.inl rfl)
      (Ccnb.nameBytes name ++ Ccnb.selectorBytes { nonce := some nonce })
    exact ⟨hcontent, _, _, Ccnb.encodeInterest_of_wires hwires hlittle,
      Suite.readBack_of_decode (Switch.read?_of_head? (Ccnb.head?_packetBytes (.inl rfl) _))
        ((congrArg _ hdrop).trans hasked) rfl, rfl, rfl, rfl, rfl, rfl⟩
  | ccnx =>
    rw [hs] at hok hdecode
    obtain ⟨hcontent, hreread⟩ := Ccnx.survives_content hok hdecode hname
    have hwrite := Ccnx.encodeInterest_of_content hok { nonce := some nonce }
    have hasked := Ccnx.decode_interest hwrite
    rw [hreread] at hasked
    exact ⟨hcontent, _, _, hwrite,
      Suite.readBack_of_decode (Switch.read?_of_head? (Ccnx.head?_packetBytes _ _ _ _)) hasked rfl,
      rfl, rfl⟩
  | cisco =>
    rw [hs] at hok hdecode
    obtain ⟨hcontent, hreread⟩ := Cisco.survives_content hok hdecode hname
    have hwrite := Cisco.encodeInterest_of_content hok { nonce := some nonce }
    have hasked := Cisco.decode_interest hwrite
    rw [hreread] at hasked
    exact ⟨hcontent, _, _, hwrite,
      Suite.readBack_of_decode (Switch.read?_header _ _) hasked rfl, rfl, rfl⟩
  | iot => exact absurd hs hsuite
  | ndn =>
    rw [hs] at hok hdecode
    obtain ⟨hcontent, hreread, hall⟩ := Ndn.survives_content hs hok hdecode hname
    have hfits := Nat.lt_of_le_of_lt (Ndn.length_interestItems_le name hnonce payload o) hall
    have hasked := Ndn.decode_interest hs hfits
    rw [hreread] at hasked
    have hdrop := Ndn.dropFrom_element (.inl rfl)
      (Tlv.Form.flexible.elements (Ndn.interestItems name { nonce := some nonce }))
    exact ⟨hcontent, _, _, Ndn.encodeInterest_of_items rfl hnonce,
      Suite.readBack_of_decode (Switch.read?_of_head? (Ndn.head?_element (.inl rfl) _))
        ((congrArg _ hdrop).trans hasked) rfl, rfl, Ndn.toldBy_interestDetails name _⟩

end NameRelay
