-- SUMMARY: In every suite the reader of packets frames what it reads.
import NameRelay.Proofs.Format.Ccnb.Framing

/-!
# Packets among other bytes

Four suites put a length in front of a packet, the fifth closes it. In all of them a packet is read
off the front of the bytes, keeps the bytes that it took, and is read the same whatever follows.
-/

namespace NameRelay

/-! ## NDN -/

namespace Ndn

theorem readName_fits {value : Cursor} {name : Name} (h : readName value = .ok name) :
    name.Fits .ndn := by
  obtain ⟨read, hfold, hend⟩ := ok_of_bind h
  cases hend
  refine Name.fits_of_foldM (fun shorter e longer hstep => ?_) hfold
  split at hstep
  · exact .inr ⟨_, hstep⟩
  · cases hstep
    exact .inl rfl

/-- A field adds at most a name of the suite or a content in its place. -/
theorem readField_found {draft read : Draft} {e : Tlv.Element} {whole : Bytes}
    (hin : e.value.In whole) (hfound : Found .ndn whole.length draft.name draft.content)
    (h : readField draft e = .ok read) : Found .ndn whole.length read.name read.content := by
  unfold readField at h
  dsimp only at h
  split at h
  · obtain ⟨name, hname, hend⟩ := ok_of_bind h
    cases hend
    exact hfound.withName (readName_fits hname)
  repeat' split at h
  all_goals first
    | obtain ⟨_, -, hend⟩ := ok_of_bind h
      cases hend
      exact hfound
    | cases h
      first | exact hfound | exact hfound.withContent hin.span_within

/-- A field of a fragment adds at most a piece in its place. -/
theorem readFragmentField_within {draft read : FragmentDraft} {e : Tlv.Element} {whole : Bytes}
    (hin : e.value.In whole) (hpiece : ∀ s, draft.piece = some s → s.Within whole.length)
    (h : readFragmentField draft e = .ok read) :
    ∀ s, read.piece = some s → s.Within whole.length := by
  unfold readFragmentField at h
  split at h
  · cases h
    exact hpiece
  · split at h
    · cases h
      intro s hs
      cases hs
      exact hin.span_within
    · cases h
      exact hpiece

/-- What is read stands in the first element: it is a link fragment with a header and a piece, or a
    message with a name. -/
theorem decode_cases {bytes : Bytes} {p : Packet} {n : Nat} (h : decode bytes = .ok (p, n)) :
    ∃ e rest, bytes = e.wire ++ rest ∧ n = e.wire.length ∧ e.wire ≠ [] ∧ e.value.In e.wire ∧
      (∀ behind, Tlv.Head.flexible.element (.ofBytes (e.wire ++ behind)) =
        .ok (e, ⟨e.wire.length, behind⟩)) ∧
      (∀ behind, decode (e.wire ++ behind) = .ok (p, n)) ∧
      ((∃ header piece, (Tlv.Head.flexible.elements e.value).foldM {} readFragmentField =
          .ok ⟨some header, some piece⟩ ∧ p = ⟨e.wire, .fragment header piece, .ndn {}⟩) ∨
        (e.type = interestType ∨ e.type = dataType) ∧
          ∃ name content details, (Tlv.Head.flexible.elements e.value).foldM {} readField =
            .ok ⟨some name, content, details⟩ ∧
          p = ⟨e.wire, .message (if e.type = interestType then .interest else .content) name content,
            .ndn details⟩) := by
  obtain ⟨⟨e, next⟩, helement, hrest⟩ := ok_of_bind h
  obtain ⟨hbytes, hnext, hne, hin, hmore⟩ :=
    Tlv.Head.element_front Tlv.Head.frames_flexible helement
  have htake (more : Bytes) : (e.wire ++ more).take e.wire.length = e.wire := List.take_left
  rw [hnext, hbytes] at hrest
  simp only [htake] at hrest
  have hagain (behind : Bytes) : decode (e.wire ++ behind) = .ok (p, n) := by
    simp only [decode, hmore, bind, Except.bind, htake]
    exact hrest
  split at hrest
  · obtain ⟨⟨header, piece⟩, hfields, hend⟩ := ok_of_bind hrest
    split at hend
    · rename_i heq
      cases heq
      cases hend
      exact ⟨e, next.rest, hbytes, rfl, hne, hin, hmore, hagain, .inl ⟨_, _, hfields, rfl⟩⟩
    · cases hend
  split at hrest
  case isTrue htype =>
    obtain ⟨⟨draftName, content, details⟩, hfields, hend⟩ := ok_of_bind hrest
    split at hend
    · cases hend
    · rename_i heq
      cases heq
      cases hend
      exact ⟨e, next.rest, hbytes, rfl, hne, hin, hmore, hagain,
        .inr ⟨htype, _, _, _, hfields, rfl⟩⟩
  case isFalse => cases hrest

theorem decode_framed {bytes : Bytes} {p : Packet} {n : Nat} (h : decode bytes = .ok (p, n)) :
    Framed decode .ndn bytes p n := by
  obtain ⟨e, rest, rfl, rfl, hne, hin, -, hagain, hcases⟩ := decode_cases h
  have hvalues {f : Tlv.Element} (hf : f ∈ (Tlv.Head.flexible.elements e.value).items) :
      f.value.In e.wire := Tlv.Head.value_in_of_mem_elements Tlv.Head.frames_flexible hin hf
  rcases hcases with ⟨header, piece, hfields, rfl⟩ | ⟨-, name, content, details, hfields, rfl⟩
  · have hpiece := Tlv.Elements.foldM_keeps
      (fun d : FragmentDraft => ∀ s, d.piece = some s → s.Within e.wire.length)
      (fun f hf _ _ => readFragmentField_within (hvalues hf)) (by simp) hfields
    exact Framed.of_front hne hagain rfl rfl hpiece trivial
  · have hfound := Tlv.Elements.foldM_keeps
      (fun d : Draft => Found .ndn e.wire.length d.name d.content)
      (fun f hf _ _ => readField_found (hvalues hf)) Found.nothing hfields
    exact Framed.of_front hne hagain rfl rfl hfound.content (hfound.name name rfl)

end Ndn

/-! ## IOT -/

namespace Iot

theorem readPathName_fits {value : Cursor} {name : Name} (h : readPathName value = .ok name) :
    name.Fits .iot := by
  obtain ⟨read, hfold, hend⟩ := ok_of_bind h
  cases hend
  refine Name.fits_of_foldM (fun shorter e longer hstep => ?_) hfold
  split at hstep
  · exact .inr ⟨_, hstep⟩
  · cases hstep
    exact .inl rfl

theorem readNamePart_fits {name read : Option Name} {e : Tlv.Element}
    (hfits : ∀ x, name = some x → x.Fits .iot) (h : readNamePart name e = .ok read) :
    ∀ x, read = some x → x.Fits .iot := by
  unfold readNamePart at h
  split at h
  · obtain ⟨path, hpath, hend⟩ := ok_of_bind h
    cases hend
    intro x hx
    cases hx
    exact readPathName_fits hpath
  · cases h
    exact hfits

/-- The place of data counts the switch that the packet keeps in front. -/
theorem span_within_kept {c : Cursor} {whole : Bytes} (hin : c.In whole) :
    (c.span.shift switch.length).Within (switch ++ whole).length := by
  rw [List.length_append]
  exact hin.span_within.shift switch.length

theorem readPayload_within {content read : Option Span} {value : Cursor} {whole : Bytes}
    (hin : value.In whole) (hcontent : ∀ s, content = some s → s.Within (switch ++ whole).length)
    (h : readPayload content value = .ok read) :
    ∀ s, read = some s → s.Within (switch ++ whole).length := by
  unfold readPayload at h
  split at h
  · cases h
    exact hcontent
  · obtain ⟨⟨e, next⟩, helement, hend⟩ := ok_of_bind h
    cases hend
    have hvalue := (Tlv.Head.element_in Tlv.Head.frames_compact helement hin).1
    intro s hs
    split at hs
    · cases hs
      exact span_within_kept hvalue
    · exact hcontent s hs

theorem readField_found {draft read : Draft} {e : Tlv.Element} {whole : Bytes}
    (hin : e.value.In whole) (hfound : Found .iot (switch ++ whole).length draft.name draft.content)
    (h : readField draft e = .ok read) :
    Found .iot (switch ++ whole).length read.name read.content := by
  unfold readField at h
  split at h
  · obtain ⟨details, -, hend⟩ := ok_of_bind h
    cases hend
    exact hfound
  · split at h
    · obtain ⟨name, hname, hend⟩ := ok_of_bind h
      cases hend
      have hfits := Tlv.Elements.foldM_keeps (fun o : Option Name => ∀ x, o = some x → x.Fits .iot)
        (fun _ _ _ _ => readNamePart_fits) hfound.name hname
      exact ⟨hfits, hfound.content⟩
    · split at h
      · obtain ⟨content, hcontent, hend⟩ := ok_of_bind h
        cases hend
        exact ⟨hfound.name, readPayload_within hin hfound.content hcontent⟩
      · cases h
        exact hfound

/-- A field of a fragment adds at most a piece in its place. -/
theorem readFragmentField_within {draft read : FragmentDraft} {e : Tlv.Element} {whole : Bytes}
    (hin : e.value.In whole)
    (hpiece : ∀ s, draft.piece = some s → s.Within (switch ++ whole).length)
    (h : readFragmentField draft e = .ok read) :
    ∀ s, read.piece = some s → s.Within (switch ++ whole).length := by
  unfold readFragmentField at h
  split at h
  · cases h
    exact hpiece
  · split at h
    · cases h
      intro s hs
      cases hs
      exact span_within_kept hin
    · cases h
      exact hpiece

theorem decode_framed {bytes : Bytes} {p : Packet} {n : Nat} (h : decode bytes = .ok (p, n)) :
    Framed decode .iot bytes p n := by
  obtain ⟨⟨e, next⟩, helement, hrest⟩ := ok_of_bind h
  obtain ⟨hbytes, hnext, hne, hin, hmore⟩ :=
    Tlv.Head.element_front Tlv.Head.frames_compact helement
  have hvalues {f : Tlv.Element} (hf : f ∈ (Tlv.Head.compact.elements e.value).items) :
      f.value.In e.wire := Tlv.Head.value_in_of_mem_elements Tlv.Head.frames_compact hin hf
  have htake (more : Bytes) : (e.wire ++ more).take e.wire.length = e.wire := List.take_left
  rw [hnext, hbytes] at hrest
  simp only [htake] at hrest
  have hagain (behind : Bytes) : decode (e.wire ++ behind) = .ok (p, n) := by
    simp only [decode, hmore, bind, Except.bind, htake]
    exact hrest
  rw [hbytes]
  split at hrest
  · obtain ⟨⟨word, piece⟩, hfields, hend⟩ := ok_of_bind hrest
    have hpiece := Tlv.Elements.foldM_keeps
      (fun d : FragmentDraft => ∀ s, d.piece = some s → s.Within (switch ++ e.wire).length)
      (fun f hf _ _ => readFragmentField_within (hvalues hf)) (by simp) hfields
    split at hend
    · rename_i heq
      cases heq
      cases hend
      exact Framed.of_front hne hagain rfl rfl hpiece trivial
    · cases hend
  · split at hrest
    · obtain ⟨draft, hfields, hend⟩ := ok_of_bind hrest
      have hfound := Tlv.Elements.foldM_keeps
        (fun d : Draft => Found .iot (switch ++ e.wire).length d.name d.content)
        (fun f hf _ _ => readField_found (hvalues hf)) Found.nothing hfields
      split at hend
      · cases hend
      · rename_i name hname
        cases hend
        exact Framed.of_front hne hagain rfl rfl hfound.content (hfound.name name hname)
    · cases hrest

end Iot

/-! ## CCNx -/

namespace Ccnx

theorem readName_fits {value : Cursor} {name : Name} (h : readName value = .ok name) :
    name.Fits .ccnx := by
  obtain ⟨read, hfold, hend⟩ := ok_of_bind h
  cases hend
  exact Name.fits_of_foldM (fun _ _ _ hstep => .inr ⟨_, hstep⟩) hfold

theorem readField_found {draft read : Draft} {e : Tlv.Element} {whole : Bytes}
    (hin : e.value.In whole) (hfound : Found .ccnx whole.length draft.name draft.content)
    (h : readField draft e = .ok read) : Found .ccnx whole.length read.name read.content := by
  unfold readField at h
  split at h
  · obtain ⟨name, hname, hend⟩ := ok_of_bind h
    cases hend
    exact hfound.withName (readName_fits hname)
  · split at h
    · cases h
      exact hfound.withContent hin.span_within
    · split at h
      · obtain ⟨block, -, hend⟩ := ok_of_bind h
        cases hend
        exact hfound
      · cases h
        exact hfound

theorem decode_framed {bytes : Bytes} {p : Packet} {n : Nat} (h : decode bytes = .ok (p, n)) :
    Framed decode .ccnx bytes p n := by
  obtain ⟨header, hheader, hpacket⟩ := ok_of_bind h
  obtain ⟨front, rest, rfl, hlength, hne, hbody, hmore⟩ := FixedHeader.read_front hheader
  have htake (more : Bytes) : (front ++ more).take header.packetLength = front :=
    List.take_left' hlength
  dsimp only at hpacket
  rw [htake] at hpacket
  have hagain (behind : Bytes) : decode (front ++ behind) = .ok (p, n) := by
    simp only [decode, hmore, bind, Except.bind, htake]
    exact hpacket
  obtain ⟨⟨e, next⟩, helement, hrest⟩ := ok_of_bind hpacket
  have hin := (Tlv.Head.element_in Tlv.Head.frames_fixed helement hbody).1
  have hvalues {f : Tlv.Element} (hf : f ∈ (Tlv.Head.fixed.elements e.value).items) :
      f.value.In front := Tlv.Head.value_in_of_mem_elements Tlv.Head.frames_fixed hin hf
  dsimp only at hrest
  split at hrest
  · cases hrest
    rw [← hlength] at hagain ⊢
    refine Framed.of_front hne hagain rfl rfl (fun s hs => ?_) trivial
    cases hs
    exact hin.span_within
  · split at hrest
    · cases hrest
    · obtain ⟨draft, hfields, hend⟩ := ok_of_bind hrest
      have hfound := Tlv.Elements.foldM_keeps
        (fun d : Draft => Found .ccnx front.length d.name d.content)
        (fun f hf _ _ => readField_found (hvalues hf)) Found.nothing hfields
      split at hend
      · cases hend
      · rename_i name hname
        cases hend
        rw [← hlength] at hagain ⊢
        exact Framed.of_front hne hagain rfl rfl hfound.content (hfound.name name hname)

end Ccnx

/-! ## Cisco -/

namespace Cisco

theorem readName_fits {value : Cursor} {name : Name} (h : readName value = .ok name) :
    name.Fits .cisco := by
  obtain ⟨read, hfold, hend⟩ := ok_of_bind h
  cases hend
  refine Name.fits_of_foldM (fun shorter e longer hstep => ?_) hfold
  split at hstep
  · exact .inr ⟨_, hstep⟩
  · cases hstep
    exact .inl rfl

theorem readField_found {draft read : Draft} {e : Tlv.Element} {whole : Bytes}
    (hin : e.value.In whole) (hfound : Found .cisco whole.length draft.name draft.content)
    (h : readField draft e = .ok read) : Found .cisco whole.length read.name read.content := by
  unfold readField at h
  split at h
  · obtain ⟨name, hname, hend⟩ := ok_of_bind h
    cases hend
    exact hfound.withName (readName_fits hname)
  · split at h
    · obtain ⟨segment, -, hend⟩ := ok_of_bind h
      cases hend
      exact hfound
    · split at h
      · cases h
        exact hfound.withContent hin.span_within
      · cases h
        exact hfound

/-- The value of the one element of a packet has its place in the packet. -/
theorem readMessage_in {c value : Cursor} {whole : Bytes} (h : readMessage c = .ok value)
    (hin : c.In whole) : value.In whole := by
  obtain ⟨⟨type, c⟩, htype, hchecked⟩ := ok_of_bind h
  have hin := (Cursor.frames_word16 _).after_in htype hin
  dsimp only at hchecked
  split at hchecked
  · cases hchecked
  · obtain ⟨⟨length, c⟩, hlength, hvalue⟩ := ok_of_bind hchecked
    have hin := (Cursor.frames_word16 _).after_in hlength hin
    obtain ⟨⟨value, next⟩, hsplit, hend⟩ := ok_of_bind hvalue
    cases hend
    exact Cursor.split_in hsplit hin

theorem decode_framed {bytes : Bytes} {p : Packet} {n : Nat} (h : decode bytes = .ok (p, n)) :
    Framed decode .cisco bytes p n := by
  obtain ⟨header, hheader, hpacket⟩ := ok_of_bind h
  obtain ⟨front, rest, rfl, hlength, hne, hbody, hmore⟩ := FixedHeader.read_front hheader
  have htake (more : Bytes) : (front ++ more).take header.packetLength = front :=
    List.take_left' hlength
  dsimp only at hpacket
  rw [htake] at hpacket
  have hagain (behind : Bytes) : decode (front ++ behind) = .ok (p, n) := by
    simp only [decode, hmore, bind, Except.bind, htake]
    exact hpacket
  split at hpacket
  · cases hpacket
  · obtain ⟨value, hvalue, hrest⟩ := ok_of_bind hpacket
    have hin := readMessage_in hvalue hbody
    obtain ⟨draft, hfields, hend⟩ := ok_of_bind hrest
    have hfound := Tlv.Elements.foldM_keeps
      (fun d : Draft => Found .cisco front.length d.name d.content)
      (fun f hf _ _ => readField_found
        (Tlv.Head.value_in_of_mem_elements Tlv.Head.frames_fixed hin hf)) Found.nothing hfields
    split at hend
    · cases hend
    · rename_i name hname
      cases hend
      rw [← hlength] at hagain ⊢
      refine Framed.of_front hne hagain rfl rfl (fun s hs => ?_) (hfound.name name hname)
      -- The places count from the packet, which is kept behind its switch.
      obtain ⟨inner, hinner, rfl⟩ := Option.map_eq_some_iff.1 hs
      rw [List.length_append]
      exact (hfound.content inner hinner).shift _

end Cisco

/-! ## All suites -/

/-- Elements that are cut out of a part of the bytes are in the bytes, with what follows them. -/
def Tlv.Head.CutsInside (head : Head) (bytes : Bytes) : Prop :=
  ∀ c e next, c.In bytes → head.element c = .ok (e, next) → e.value.In bytes ∧ next.In bytes

/-- A packet that a fixed header announces is inside the bytes, and behind its header. -/
def FixedHeader.ReadsInside (badVersion badLength : Malformation) (bytes : Bytes) : Prop :=
  ∀ h, read badVersion badLength bytes = .ok h →
    h.headerLength ≤ h.packetLength ∧ h.packetLength ≤ bytes.length

namespace Suite

/-- What the reader of a suite cuts out of `bytes`, or looks up by its place, is inside them,
    whether or not they are a packet. CCNB alone looks values up by their places: more bytes
    behind `bytes`, which a place outside would reach, change nothing. -/
def ReadsInside : Suite → Bytes → Prop
  | ccnb, bytes => ∀ behind draft c, c.In bytes →
      Ccnb.readFields (bytes ++ behind) draft c = Ccnb.readFields bytes draft c
  | ccnx, bytes =>
    FixedHeader.ReadsInside .ccnxVersion .ccnxHeaderLength bytes ∧ Tlv.Head.fixed.CutsInside bytes
  | cisco, bytes =>
    FixedHeader.ReadsInside .ciscoVersion .ciscoHeaderLength bytes ∧ Tlv.Head.fixed.CutsInside bytes
  | iot, bytes => Tlv.Head.compact.CutsInside bytes
  | ndn, bytes => Tlv.Head.flexible.CutsInside bytes

theorem readsInside (suite : Suite) (bytes : Bytes) : suite.ReadsInside bytes := by
  have hheader (badVersion badLength : Malformation) :
      FixedHeader.ReadsInside badVersion badLength bytes := by
    intro h hread
    obtain ⟨hheader, -, hinside, -⟩ := FixedHeader.read_eq hread
    exact ⟨hheader, hinside⟩
  have hcuts {head : Tlv.Head} (hhead : ∀ c, Cursor.Frames head.read c) : head.CutsInside bytes :=
    fun _ _ _ hin h => Tlv.Head.element_in hhead h hin
  cases suite with
  | ccnb =>
    intro behind draft c hin
    apply Ccnb.Agree.readFields
    exact fun s hs => Ccnb.agree_append bytes behind s (hs.mono hin.span_within.2)
  | ccnx => exact ⟨hheader _ _, hcuts Tlv.Head.frames_fixed⟩
  | cisco => exact ⟨hheader _ _, hcuts Tlv.Head.frames_fixed⟩
  | iot => exact hcuts Tlv.Head.frames_compact
  | ndn => exact hcuts Tlv.Head.frames_flexible

theorem decode_framed {suite : Suite} {bytes : Bytes} {p : Packet} {n : Nat}
    (h : suite.decode bytes = .ok (p, n)) : Framed suite.decode suite bytes p n := by
  cases suite with
  | ccnb => exact Ccnb.decode_framed h
  | ccnx => exact Ccnx.decode_framed h
  | cisco => exact Cisco.decode_framed h
  | iot => exact Iot.decode_framed h
  | ndn => exact Ndn.decode_framed h

/-- Reading stays inside the bytes. A packet that is read takes some of them and keeps just these,
    behind its switch if it needs one. Its content has a place in it, and it is a fragment or has a
    name of its suite. It is read the same whatever follows it, and no beginning of it is a packet. -/
theorem decode_frames_packets (suite : Suite) (bytes : Bytes) :
    suite.ReadsInside bytes ∧
    ∀ p n, suite.decode bytes = .ok (p, n) →
      (0 < n ∧ n ≤ bytes.length) ∧ p.suite = suite ∧
      p.bytes = (if suite.needsSwitch then Switch.header suite else []) ++ bytes.take n ∧
      (∀ span, p.contentSpan? = some span →
        span.start ≤ span.stop ∧ span.stop ≤ p.bytes.length) ∧
      (p.fragment?.isSome ∧ p.contentSpan?.isSome ∧ p.name? = none ∨
        ∃ name, p.name? = some name ∧ name.suite = suite ∧ name.size ≤ maxComponents ∧
          p.fragment? = none) ∧
      (∀ behind, suite.decode (bytes.take n ++ behind) = .ok (p, n)) ∧
      ∀ m < n, ∃ e, suite.decode (bytes.take m) = .error e := by
  refine ⟨suite.readsInside bytes, fun p n h => ?_⟩
  have hframed := decode_framed h
  refine ⟨⟨hframed.positive, hframed.inside⟩, hframed.ofSuite, hframed.kept, hframed.content, ?_,
    hframed.again, fun m hm => Framed.no_shorter (fun _ _ _ => decode_framed) h hm⟩
  obtain ⟨packetBytes, body, details⟩ := p
  cases body with
  | message kind name content =>
    obtain ⟨hsuite, hsize⟩ := hframed.body
    exact .inr ⟨name, rfl, hsuite, hsize, rfl⟩
  | fragment header piece => exact .inl ⟨rfl, rfl, rfl⟩

/-- An interest for `/a` with another byte behind it. -/
theorem decode_frames_interest :
    ∃ p, Suite.iot.decode [135, 2, 1, 5, 67, 2, 65, 97, 0] = .ok (p, 8) ∧
      p.bytes = [128, 3, 135, 2, 1, 5, 67, 2, 65, 97] ∧
      (∀ behind, Suite.iot.decode ([135, 2, 1, 5, 67, 2, 65, 97] ++ behind) = .ok (p, 8)) ∧
      ∀ m < 8, ∃ e, Suite.iot.decode ([135, 2, 1, 5, 67, 2, 65, 97, 0].take m) = .error e := by
  have hread : Suite.iot.decode [135, 2, 1, 5, 67, 2, 65, 97, 0] =
      .ok (⟨[128, 3, 135, 2, 1, 5, 67, 2, 65, 97],
        .message .interest ⟨.iot, [[97]], none, .none⟩ none, .iot ⟨some 5, 5⟩⟩, 8) := by
    cbv
  obtain ⟨-, -, hkept, -, -, hagain, hshorter⟩ :=
    (decode_frames_packets .iot [135, 2, 1, 5, 67, 2, 65, 97, 0]).2 _ 8 hread
  exact ⟨_, hread, hkept, hagain, hshorter⟩

end Suite

end NameRelay
