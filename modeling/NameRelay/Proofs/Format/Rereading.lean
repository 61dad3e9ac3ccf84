-- SUMMARY: Whatever name is written, the packet is read under the name that its components reread to.
import NameRelay.Proofs.Format.Framing
import NameRelay.Proofs.Format.Surviving

/-!
# Names that are written again

A name need not have been built here. It may have been read from a packet, and then its components
are what stood there. In the suites that frame components, a reader keeps only components in frames,
so those of a name that was read are kept when they are written and read again. Hence a packet with
any such name is read, and under the name to which its components reread.
-/

namespace NameRelay

open Tlv (Form)

/-! ## Names that were read -/

/-- An element that is kept with its head is a frame. -/
theorem Tlv.Head.frame_of_element {c next : Cursor} {e : Tlv.Element}
    (h : Tlv.Head.fixed.element c = .ok (e, next)) : ∃ value, e.wire = Component.frame e.type value ∧
      e.type < 0x10000 ∧ value.length < 0x10000 := by
  obtain ⟨⟨⟨type, length⟩, inner⟩, hread, hvalue⟩ := ok_of_bind h
  obtain ⟨⟨value, after⟩, hsplit, hend⟩ := ok_of_bind hvalue
  obtain ⟨-, -, hwire, -, hrest, -⟩ := element_eq frames_fixed h
  obtain ⟨-, hinner, hlength, -⟩ := Cursor.split_eq hsplit
  obtain ⟨hhead, htype, hshort⟩ := eq_of_read_fixed hread
  cases hend
  have hall := hhead.symm.trans hrest
  rw [hinner, ← List.append_assoc] at hall
  refine ⟨value.rest, ?_, htype, by omega⟩
  rw [Component.frame, hlength]
  exact (List.append_cancel_right hall).symm

/-- What holds of every component that a reader takes from an element holds of the name it reads. -/
theorem Name.forall_mem_of_foldM {suite : Suite} {q : Bytes → Prop} {value : Cursor}
    {step : Name → Tlv.Element → Except DecodeError Name}
    (hstep : ∀ name e longer next c, Tlv.Head.fixed.element c = .ok (e, next) →
      step name e = .ok longer → longer = name ∨ name.readWire e.wire = .ok longer ∧ q e.wire)
    {read : Name} (h : (Tlv.Head.fixed.elements value).foldM (root suite) step = .ok read) :
    ∀ wire ∈ read.stripMarkers.components, q wire := by
  intro wire hwire
  refine Tlv.Elements.foldM_keeps (fun name => ∀ wire ∈ name.components, q wire) ?_
    (fun _ hw => absurd hw List.not_mem_nil) h wire (mem_of_mem_stripMarkers hwire)
  intro e he shorter longer hall hlonger
  obtain ⟨c, next, helement⟩ := Tlv.Head.element_of_mem_elements he
  obtain rfl | ⟨hread, hq⟩ := hstep shorter e longer next c helement hlonger
  · exact hall
  · obtain ⟨-, hcomponents, -⟩ := readWire_eq_ok hread
    intro w hw
    rw [hcomponents] at hw
    rcases List.mem_append.1 hw with hold | hnew
    · exact hall w hold
    · rwa [List.mem_singleton.1 hnew]

/-- A name that is found in some field is one that a field can give. -/
theorem Tlv.Elements.name_of_foldM {σ : Type} {f : σ → Option Name} {q : Name → Prop}
    {es : Tlv.Elements} {step : σ → Tlv.Element → Except DecodeError σ}
    (hstep : ∀ draft e read, step draft e = .ok read →
      f read = f draft ∨ ∃ name, q name ∧ f read = some name)
    {start read : σ} (hstart : f start = none) (h : es.foldM start step = .ok read) :
    ∀ name, f read = some name → q name := by
  refine es.foldM_keeps (fun draft => ∀ name, f draft = some name → q name) ?_ ?_ h
  · intro e _ draft next hkeeps hnext name hname
    obtain hsame | ⟨found, hfound, hnew⟩ := hstep draft e next hnext
    · exact hkeeps name (hsame ▸ hname)
    · cases hnew.symm.trans hname
      exact hfound
  · intro name hname
    cases hstart.symm.trans hname

namespace Ccnx

theorem readName_enclosed {value : Cursor} {name : Name} (h : readName value = .ok name) :
    ∀ wire ∈ name.components, Component.Enclosed .ccnx wire := by
  obtain ⟨read, hfold, hend⟩ := ok_of_bind h
  cases hend
  refine Name.forall_mem_of_foldM ?_ hfold
  intro shorter e longer next c helement hlonger
  obtain ⟨value, hwire, htype, hlength⟩ := Tlv.Head.frame_of_element helement
  exact .inr ⟨hlonger, fun _ => ⟨e.type, value, hwire, htype, hlength⟩⟩

theorem readField_name_eq {draft read : Draft} {e : Tlv.Element} (h : readField draft e = .ok read) :
    read.name = draft.name ∨
      ∃ name, (∃ value, readName value = .ok name) ∧ read.name = some name := by
  unfold readField at h
  split at h
  · obtain ⟨name, hname, hend⟩ := ok_of_bind h
    cases hend
    exact .inr ⟨name, ⟨_, hname⟩, rfl⟩
  · split at h
    · cases h
      exact .inl rfl
    · split at h
      · obtain ⟨block, -, hend⟩ := ok_of_bind h
        cases hend
        exact .inl rfl
      · cases h
        exact .inl rfl

/-- The name of a packet was read in one of its fields. -/
theorem readName_of_decode {bytes : Bytes} {p : Packet} {n : Nat} (h : decode bytes = .ok (p, n))
    {name : Name} (hname : p.name? = some name) : ∃ value, readName value = .ok name := by
  obtain ⟨header, -, hpacket⟩ := ok_of_bind h
  obtain ⟨⟨e, next⟩, -, hrest⟩ := ok_of_bind hpacket
  dsimp only at hrest
  split at hrest
  · cases hrest
    cases hname
  · split at hrest
    · cases hrest
    · obtain ⟨draft, hfields, hend⟩ := ok_of_bind hrest
      have hread := Tlv.Elements.name_of_foldM (f := Draft.name)
        (fun _ _ _ => readField_name_eq) rfl hfields
      split at hend
      · cases hend
      · rename_i read hfound
        cases hend
        cases hname
        exact hread _ hfound

end Ccnx

namespace Cisco

theorem readName_wellFormed {value : Cursor} {name : Name} (h : readName value = .ok name) :
    ∀ wire ∈ name.components, Component.WellFormed .cisco wire := by
  obtain ⟨read, hfold, hend⟩ := ok_of_bind h
  cases hend
  refine Name.forall_mem_of_foldM ?_ hfold
  intro shorter e longer next c helement hlonger
  obtain ⟨value, hwire, -, hlength⟩ := Tlv.Head.frame_of_element helement
  split at hlonger
  · rename_i hknown
    refine .inr ⟨hlonger, fun _ => ⟨e.type, value, hwire, ?_, hlength⟩⟩
    simpa [isComponent, Component.chunkType] using hknown
  · cases hlonger
    exact .inl rfl

theorem readField_name_eq {draft read : Draft} {e : Tlv.Element} (h : readField draft e = .ok read) :
    read.name = draft.name ∨
      ∃ name, (∃ value, readName value = .ok name) ∧ read.name = some name := by
  unfold readField at h
  split at h
  · obtain ⟨name, hname, hend⟩ := ok_of_bind h
    cases hend
    exact .inr ⟨name, ⟨_, hname⟩, rfl⟩
  · split at h
    · obtain ⟨segment, -, hend⟩ := ok_of_bind h
      cases hend
      exact .inl rfl
    · split at h
      · cases h
        exact .inl rfl
      · cases h
        exact .inl rfl

/-- The name of a packet was read in one of its fields. -/
theorem readName_of_decode {bytes : Bytes} {p : Packet} {n : Nat} (h : decode bytes = .ok (p, n))
    {name : Name} (hname : p.name? = some name) : ∃ value, readName value = .ok name := by
  obtain ⟨header, -, hpacket⟩ := ok_of_bind h
  dsimp only at hpacket
  split at hpacket
  · cases hpacket
  · obtain ⟨value, -, hrest⟩ := ok_of_bind hpacket
    obtain ⟨draft, hfields, hend⟩ := ok_of_bind hrest
    have hread := Tlv.Elements.name_of_foldM (f := Draft.name)
      (fun _ _ _ => readField_name_eq) rfl hfields
    split at hend
    · cases hend
    · rename_i read hfound
      cases hend
      cases hname
      exact hread _ hfound

end Cisco

/-! ## Names that are kept -/

/-- A reader of the suite takes the component whole, wherever it stands: it is in a frame if the suite
    frames components, and in one that is known to the suite that passes over others. -/
def Component.Kept (suite : Suite) (wire : Bytes) : Prop :=
  Enclosed suite wire ∧ (suite = .cisco → WellFormed suite wire)

theorem Component.WellFormed.kept {suite : Suite} {wire : Bytes} (h : WellFormed suite wire) :
    Kept suite wire := ⟨h.enclosed, fun _ => h⟩

namespace Name

/-- All components of the name are kept when they are read again. -/
def Kept (name : Name) : Prop := ∀ wire ∈ name.components, Component.Kept name.suite wire

theorem Kept.enclosed {name : Name} (h : name.Kept) : name.Enclosed :=
  fun wire hwire => (h wire hwire).1

theorem Enclosed.kept {name : Name} (h : name.Enclosed) (hsuite : name.suite ≠ .cisco) : name.Kept :=
  fun wire hwire => ⟨h wire hwire, fun hcisco => absurd hcisco hsuite⟩

theorem Kept.pushWire {name extended : Name} {wire : Bytes} (h : name.Kept)
    (hwire : Component.WellFormed name.suite wire) (hpush : name.pushWire wire = .ok extended) :
    extended.Kept := by
  unfold Name.pushWire at hpush
  split at hpush
  · cases hpush
    intro w hw
    rcases List.mem_append.1 hw with hold | hnew
    · exact h w hold
    · rw [List.mem_singleton.1 hnew]
      exact hwire.kept
  · cases hpush

/-- The name of a packet that was read is kept. -/
theorem kept_of_decode {suite : Suite} {bytes : Bytes} {p : Packet} {n : Nat}
    (h : suite.decode bytes = .ok (p, n)) {name : Name} (hname : p.name? = some name) : name.Kept := by
  have hsuite : name.suite = suite := by
    have hfits := (Suite.decode_framed h).body
    cases hbody : p.body with
    | fragment => rw [Packet.name?, hbody] at hname; cases hname
    | message kind x content =>
      rw [Packet.name?, hbody] at hname
      cases hname
      rw [hbody] at hfits
      exact hfits.1
  intro wire hwire
  rw [hsuite]
  cases suite with
  | ccnx =>
    obtain ⟨value, hread⟩ := Ccnx.readName_of_decode h hname
    refine ⟨Ccnx.readName_enclosed hread wire hwire, ?_⟩
    intro hcisco
    cases hcisco
  | cisco =>
    obtain ⟨value, hread⟩ := Cisco.readName_of_decode h hname
    exact (Cisco.readName_wellFormed hread wire hwire).kept
  | ccnb | iot | ndn => exact (Component.wellFormed_of_unframed rfl wire).kept

/-- The name was made: from nothing or from a name that was read, with values, chunk numbers and
    flags added. -/
inductive Made : Name → Prop where
  | root (suite : Suite) : Made (root suite)
  | read {suite : Suite} {bytes : Bytes} {p : Packet} {n : Nat} {name : Name}
      (hread : suite.decode bytes = .ok (p, n)) (hname : p.name? = some name) : Made name
  | push {name extended : Name} {value : Bytes} (h : Made name)
      (hpush : name.push value = .ok extended) : Made extended
  | withChunk {name extended : Name} {chunk : UInt32} (h : Made name)
      (hchunk : name.withChunk chunk = .ok extended) : Made extended
  | withFlags {name : Name} (h : Made name) (flags : FunctionFlags) : Made (name.withFlags flags)

theorem Made.kept {name : Name} (h : name.Made) : name.Kept := by
  induction h with
  | root suite => exact fun _ hw => nomatch hw
  | read hread hname => exact kept_of_decode hread hname
  | push _ hpush ih =>
    obtain ⟨wire, hwire, hextended⟩ := ok_of_bind hpush
    exact ih.pushWire (Component.wellFormed_ofValue hwire) hextended
  | withChunk _ hchunk ih =>
    obtain ⟨wire, hwire, hrest⟩ := ok_of_bind hchunk
    obtain ⟨longer, hlonger, hend⟩ := ok_of_bind hrest
    cases hend
    have hkept : longer.Kept := ih.pushWire (Component.chunk?_ofChunk hwire).1 hlonger
    exact hkept
  | withFlags _ flags ih => exact ih

end Name

/-! ## Reading what was written -/

namespace Suite

variable {name read : Name} {wire payload : Bytes}

/-- An interest is read just if its name is reread, and under the name that this gives. -/
theorem decode_interest_reread (hkept : name.Kept) (hsize : name.size ≤ maxComponents)
    (hcomponents : ∀ wire ∈ name.components, wire.length < 2 ^ 53) {o : InterestOptions}
    (hok : name.suite.encodeInterest name o = .ok wire) :
    ∃ d : Details, d.suite = name.suite ∧ o.ToldBy d ∧
      (name.suite.decodeBehindSwitch wire).toOption = name.reread.toOption.map fun read =>
        (⟨wire, .message .interest read none, d⟩, (Switch.dropFrom wire).length) := by
  have hroom := @Write.roomFor_lt name 0 hsize hcomponents (by decide)
  have hwires := Name.length_lt_of_mem_wireComponents (by decide) hcomponents
  have hmap (f : Name → Packet × Nat) :
      (name.reread.map f).toOption = name.reread.toOption.map f := by
    cases name.reread <;> rfl
  rw [decodeBehindSwitch]
  cases hsuite : name.suite with
  | ccnb =>
    rw [hsuite] at hok
    refine ⟨.ccnb (Ccnb.interestDetails o), rfl, ⟨rfl, rfl, rfl, rfl⟩, ?_⟩
    cases hreread : name.reread with
    | ok read =>
      exact congrArg Except.toOption
        (Ccnb.decode_encodeInterest_reread hreread hsuite hsize hwires hok)
    | error e =>
      -- Had the packet been read, its name would have been reread on the way.
      cases hdecode : Suite.ccnb.decode _ with
      | error => rfl
      | ok r =>
        obtain ⟨-, rfl⟩ := (Ccnb.encodeInterest_eq_ok_iff name wire o).1 hok
        rw [Ccnb.dropFrom_packetBytes (.inl rfl)] at hdecode
        obtain ⟨⟨read, hread⟩, -⟩ := Ccnb.reread_of_decode hsuite (by decide) hdecode
        cases hreread.symm.trans hread
  | ccnx =>
    rw [hsuite] at hok
    have hread := Ccnx.decode_interest hok
    rw [Ccnx.reread, Ccnx.readName_flatten hkept.enclosed hsuite] at hread
    exact ⟨.ccnx ⟨o.hopLimit.getD Ccnx.defaultInterestHopLimit, none⟩, rfl, rfl,
      (congrArg Except.toOption hread).trans (hmap _)⟩
  | cisco =>
    rw [hsuite] at hok
    have hread := Cisco.decode_interest hok
    rw [Cisco.reread, Cisco.readName_flatten (fun w hw => (hkept w hw).2 hsuite) hsuite] at hread
    exact ⟨.cisco ⟨o.hopLimit.getD Cisco.defaultHopLimit, none⟩, rfl, rfl,
      (congrArg Except.toOption hread).trans (hmap _)⟩
  | iot =>
    rw [hsuite] at hok
    obtain ⟨hle, rfl⟩ := (Iot.encodeInterest_eq_ok_iff name wire o).1 hok
    have hall : (Form.compact.elements
        (Iot.interestItems name (o.hopLimit.getD Iot.defaultTtl))).length < Form.compact.limit := by
      rw [Iot.interestBytes, List.length_append, Form.length_element] at hle
      rw [Form.limit_compact]
      omega
    have hread := Iot.decode_interest hsuite (o.hopLimit.getD Iot.defaultTtl) hall
    exact ⟨.iot ⟨some (o.hopLimit.getD Iot.defaultTtl), (Iot.beforeTtl name).length⟩, rfl, rfl,
      (congrArg Except.toOption hread).trans (hmap _)⟩
  | ndn =>
    rw [hsuite] at hok
    exact ⟨_, rfl, Ndn.toldBy_interestDetails name o,
      (congrArg Except.toOption (Ndn.decode_encodeInterest_reread hsuite hroom hok)).trans (hmap _)⟩

/-- If its name is reread, a content is read under the name that this gives. -/
theorem decode_content_reread (hkept : name.Kept) (hsize : name.size ≤ maxComponents)
    (hcomponents : ∀ wire ∈ name.components, wire.length < 2 ^ 53)
    (hpayload : payload.length < 2 ^ 53) {o : ContentOptions} (hreread : name.reread = .ok read)
    (hok : name.suite.encodeContent name payload o = .ok wire) :
    ∃ span : Span, name.suite.decodeBehindSwitch wire =
      .ok (⟨wire, .message .content read (some span), o.details name.suite⟩,
        (Switch.dropFrom wire).length) ∧ span.of wire = payload := by
  have hroom := Write.roomFor_lt hsize hcomponents hpayload
  have hwires := Name.length_lt_of_mem_wireComponents (by decide) hcomponents
  rw [decodeBehindSwitch]
  cases hsuite : name.suite with
  | ccnb =>
    rw [hsuite] at hok
    exact Ccnb.decode_content hreread hsuite hwires hpayload hok
  | ccnx =>
    rw [hsuite] at hok
    have hread := Ccnx.decode_content hok
    rwa [Ccnx.reread, Ccnx.readName_flatten hkept.enclosed hsuite, hreread] at hread
  | cisco =>
    rw [hsuite] at hok
    have hread := Cisco.decode_content hok
    rwa [Cisco.reread, Cisco.readName_flatten (fun w hw => (hkept w hw).2 hsuite) hsuite,
      hreread] at hread
  | iot =>
    rw [hsuite] at hok
    have hread := Iot.decode_encodeContent_reread (o := o) hsuite hroom hok
    rwa [hreread] at hread
  | ndn =>
    rw [hsuite] at hok
    have hread := Ndn.decode_encodeContent_reread hsuite hroom hok
    rwa [hreread] at hread

end Suite

end NameRelay
