-- SUMMARY: A hop limit that is written over is read back, and everything else is read as before.
import NameRelay.Proofs.Format.Framing
import NameRelay.Proofs.Wire.Headers
import NameRelay.Proofs.Wire.Replacing

/-!
# Hop limits that are written over

Two suites have a hop limit. In CCNx it is a byte of the fixed header. In IOT it is the value of some
hop limit in some optional headers, and a reader notes where the last one stands. In both the packet
can be read again with any byte in its place, as the same packet with this hop limit.
-/

namespace NameRelay

/-- The byte at the offset is the hop limit, and no part of the content. With another byte in its
    place the bytes are read, behind any switch, as the packet with this hop limit. -/
structure HopLimitAt (suite : Suite) (p : Packet) (n offset : Nat) (limit : UInt8) : Prop where
  stands : p.bytes[offset]? = some limit
  apart : ∀ s, p.contentSpan? = some s → ¬s.Holds offset
  reread : ∀ b, suite.decodeBehindSwitch (p.bytes.set offset b) =
    .ok (⟨p.bytes.set offset b, p.body, p.details.withHopLimit b⟩, n)

/-- Two suites have a hop limit, one of them in some packets only. -/
theorem Packet.hopLimit?_cases (p : Packet) :
    (∃ d, p.details = .ccnx d ∧ p.hopLimit? = some (ccnxHopLimitOffset, d.hopLimit)) ∨
      (∃ ttl offset, p.details = .iot ⟨some ttl, offset⟩ ∧ p.hopLimit? = some (offset, ttl)) ∨
      (∀ d, p.details ≠ .ccnx d) ∧ (∀ ttl offset, p.details ≠ .iot ⟨some ttl, offset⟩) ∧
        p.hopLimit? = none := by
  unfold hopLimit?
  split
  · rename_i d hdetails
    exact .inl ⟨d, hdetails, rfl⟩
  · rename_i ttl offset hdetails
    exact .inr (.inl ⟨ttl, offset, hdetails, rfl⟩)
  · rename_i hccnx hiot
    exact .inr (.inr ⟨hccnx, hiot, rfl⟩)

/-! ## CCNx -/

/-- The hop limit of a fixed header is one of its bytes, and no check looks at it. -/
theorem FixedHeader.read_set {badVersion badLength : Malformation} {bytes : Bytes} {h : FixedHeader}
    (hread : read badVersion badLength bytes = .ok h) :
    bytes.head? = some version ∧ bytes[Packet.ccnxHopLimitOffset]? = some h.hopLimit ∧
      Packet.ccnxHopLimitOffset < h.headerLength ∧
      ∀ b, read badVersion badLength (bytes.set Packet.ccnxHopLimitOffset b) =
        .ok { h with hopLimit := b } := by
  obtain ⟨packetType, l, m, hopLimit, x, y, n, rest, rfl, ⟨hsize, hheader, hinside⟩, rfl⟩ :=
    eq_bytes_of_read hread
  have hplace : Packet.ccnxHopLimitOffset < size := by decide
  exact ⟨rfl, rfl, Nat.lt_of_lt_of_le hplace hsize, fun b => read_bytes_eq_ok hsize hheader hinside⟩

namespace Ccnx

/-- A field adds at most a content that does not begin before the field. -/
theorem readField_content_behind {draft read : Draft} {e : Tlv.Element} {place : Nat}
    (hplace : place < e.value.pos) (hcontent : ∀ s, draft.content = some s → place < s.start)
    (h : readField draft e = .ok read) : ∀ s, read.content = some s → place < s.start := by
  unfold readField at h
  split at h
  · obtain ⟨name, -, hend⟩ := ok_of_bind h
    cases hend
    exact hcontent
  · split at h
    · cases h
      intro s hs
      cases hs
      exact hplace
    · split at h
      · obtain ⟨block, -, hend⟩ := ok_of_bind h
        cases hend
        exact hcontent
      · cases h
        exact hcontent

/-- Bytes with another hop limit are read as the packet with this hop limit. -/
theorem decode_set {bytes : Bytes} {p : Packet} {n : Nat} {d : CcnxDetails}
    (h : decode bytes = .ok (p, n)) (hdetails : p.details = .ccnx d) :
    bytes.head? = some FixedHeader.version ∧
      bytes[Packet.ccnxHopLimitOffset]? = some d.hopLimit ∧
      (∀ s, p.contentSpan? = some s → Packet.ccnxHopLimitOffset < s.start) ∧
      ∀ b, decode (bytes.set Packet.ccnxHopLimitOffset b) =
        .ok (⟨(bytes.set Packet.ccnxHopLimitOffset b).take n, p.body,
          .ccnx { d with hopLimit := b }⟩, n) := by
  obtain ⟨header, hheader, hpacket⟩ := ok_of_bind h
  obtain ⟨hversion, hstands, hheaderBehind, hread⟩ := FixedHeader.read_set hheader
  obtain ⟨⟨e, next⟩, helement, hrest⟩ := ok_of_bind hpacket
  have hbody (b : UInt8) : ({ header with hopLimit := b } : FixedHeader).body
      ((bytes.set Packet.ccnxHopLimitOffset b).take header.packetLength) =
        header.body (bytes.take header.packetLength) := by
    rw [List.take_set, FixedHeader.body, FixedHeader.body, List.drop_set_of_lt hheaderBehind]
  have hbehind : Packet.ccnxHopLimitOffset < e.value.pos :=
    Nat.lt_trans hheaderBehind (Tlv.Head.element_places Tlv.Head.frames_fixed helement).1
  dsimp only at hrest
  split at hrest
  · rename_i hfragment
    cases hrest
    cases hdetails
    refine ⟨hversion, hstands, fun s hs => ?_, fun b => ?_⟩
    · cases hs
      exact hbehind
    · simp only [decode, hread, hbody, helement, bind, Except.bind, if_pos hfragment]
      rfl
  · rename_i hmessage
    split at hrest
    · cases hrest
    · rename_i kind hkind
      obtain ⟨draft, hfields, hend⟩ := ok_of_bind hrest
      have hcontent := Tlv.Elements.foldM_keeps
        (fun d : Draft => ∀ s, d.content = some s → Packet.ccnxHopLimitOffset < s.start)
        (fun f hf _ _ => readField_content_behind (Nat.lt_of_lt_of_le hbehind
          (Tlv.Head.value_inside_of_mem_elements Tlv.Head.frames_fixed hf).1)) (by simp) hfields
      split at hend
      · cases hend
      · rename_i name hname
        cases hend
        cases hdetails
        refine ⟨hversion, hstands, hcontent, fun b => ?_⟩
        simp only [decode, hread, hbody, helement, bind, Except.bind, if_neg hmessage, hkind, hfields,
          hname]
        rfl

theorem hopLimitAt {bytes : Bytes} {p : Packet} {n : Nat} {d : CcnxDetails}
    (h : decode bytes = .ok (p, n)) (hdetails : p.details = .ccnx d) :
    HopLimitAt .ccnx p n Packet.ccnxHopLimitOffset d.hopLimit := by
  have hframed := decode_framed h
  have hkept : p.bytes = bytes.take n := hframed.kept
  have hlength : p.bytes.length = n := by rw [hkept, List.length_take_of_le hframed.inside]
  -- The packet keeps all that is read of it, so it is read again from its own bytes.
  have hown := hframed.again []
  rw [List.append_nil, ← hkept] at hown
  obtain ⟨hversion, hstands, hcontent, hset⟩ := decode_set hown hdetails
  refine ⟨hstands, fun s hs hcovers => ?_, fun b => ?_⟩
  · exact absurd hcovers.1 (Nat.not_le.2 (hcontent s hs))
  · have hall : (p.bytes.set Packet.ccnxHopLimitOffset b).take n =
        p.bytes.set Packet.ccnxHopLimitOffset b := by
      rw [List.take_of_length_le (by rw [List.length_set, hlength])]
    have hhead : (p.bytes.set Packet.ccnxHopLimitOffset b).head? ≠ some Switch.mark := by
      rw [List.head?_eq_getElem?, List.getElem?_set_ne (by decide), ← List.head?_eq_getElem?, hversion]
      decide
    have hread := hset b
    rw [hall] at hread
    rw [Suite.decodeBehindSwitch, Switch.dropFrom_of_head? hhead, hdetails]
    exact hread

end Ccnx

/-! ## IOT -/

namespace Iot

open Tlv (Head)

/-- The details when another byte is written at a place behind the switch. -/
def putTtl (d : IotDetails) (place : Nat) (b : UInt8) : IotDetails :=
  if d.ttlOffset = place + switch.length then ⟨some b, d.ttlOffset⟩ else d

/-- What the fields say when another byte is written at a place behind the switch. -/
def Draft.put (draft : Draft) (place : Nat) (b : UInt8) : Draft :=
  { draft with details := putTtl draft.details place b }

/-- If the place is in the field, it is in the value of an optional header. -/
def InHeader (field : Tlv.Element) (place : Nat) : Prop :=
  field.value.Covers place → field.type = optionalHeaderType ∧
    ∃ part ∈ (Head.compact.elements field.value).items, part.value.Covers place

theorem readOptionalHeader_of_length {d : IotDetails} {e : Tlv.Element} (h : e.length ≠ 1) :
    readOptionalHeader d e = .ok d := by
  unfold readOptionalHeader
  split
  · rename_i ttl hrest
    rw [Tlv.Element.length, Cursor.remaining, hrest] at h
    exact absurd rfl h
  · rfl

/-- An optional header of one byte is a time to live where it is of this type. -/
theorem readOptionalHeader_of_single {d : IotDetails} {e : Tlv.Element} {ttl : UInt8}
    (h : e.value.rest = [ttl]) : readOptionalHeader d e =
      .ok (if e.type = hopLimitType then ⟨some ttl, e.value.pos + switch.length⟩ else d) := by
  simp only [readOptionalHeader, h]
  split <;> rfl

/-- Whatever optional header is read, a byte written in it is a byte written in the details. -/
theorem readOptionalHeader_put (d : IotDetails) (e : Tlv.Element) (place : Nat) (b : UInt8) :
    readOptionalHeader (putTtl d place b) (e.put place b) =
      (readOptionalHeader d e).map (putTtl · place b) := by
  by_cases hone : e.length = 1
  · obtain ⟨ttl, hrest⟩ := List.length_eq_one_iff.1 hone
    rw [readOptionalHeader_of_single hrest]
    by_cases hcovers : e.value.Covers place
    · obtain ⟨rfl, hput⟩ := Cursor.put_single (b := b) hrest hcovers
      rw [readOptionalHeader_of_single hput]
      by_cases htype : e.type = hopLimitType
      · simp [htype, Except.map, putTtl]
      · simp [htype, Except.map]
    · have hput : e.value.put place b = e.value := Cursor.put_of_not_covers hcovers
      have hplace : e.value.pos ≠ place := by
        rintro rfl
        exact hcovers (Cursor.covers_pos_of_single hrest)
      have hrest' : (e.put place b).value.rest = [ttl] := by rw [Tlv.Element.put_value, hput, hrest]
      rw [readOptionalHeader_of_single hrest']
      by_cases htype : e.type = hopLimitType
      · simp [htype, Except.map, putTtl, hplace]
      · simp [htype, Except.map]
  · have hput : (e.put place b).length ≠ 1 := by
      rw [Tlv.Element.length, Tlv.Element.put_value, Cursor.remaining, Cursor.length_put]
      exact hone
    rw [readOptionalHeader_of_length hone, readOptionalHeader_of_length hput]
    rfl

/-- A byte written in an optional header of a field, or outside the field, is a byte written in what
    the field says. -/
theorem readField_put {e : Tlv.Element} {place : Nat} (h : InHeader e place) (draft : Draft)
    (b : UInt8) : readField (draft.put place b) (e.put place b) =
      (readField draft e).map (·.put place b) := by
  by_cases hheader : e.type = optionalHeaderType
  · have hparts := Head.elements_put (b := b) Head.frames_compact fun hcovers => (h hcovers).2
    have hfold := (Head.compact.elements e.value).foldM_map (putTtl · place b) (·.put place b)
      (fun part _ d => readOptionalHeader_put d part place b) draft.details
    simp only [readField, Tlv.Element.put_type, if_pos hheader, Tlv.Element.put_value, hparts,
      Draft.put, hfold]
    cases (Head.compact.elements e.value).foldM draft.details readOptionalHeader <;> rfl
  · have hput : (e.put place b).value = e.value :=
      Cursor.put_of_not_covers fun hcovers => hheader (h hcovers).1
    simp only [readField, Tlv.Element.put_type, if_neg hheader, hput, Draft.put]
    split
    · cases (Head.compact.elements e.value).foldM draft.name readNamePart <;> rfl
    · split
      · cases readPayload draft.content e.value <;> rfl
      · rfl

/-- The data of a payload is inside the payload. -/
theorem readPayload_apart {content read : Option Span} {value : Cursor} {place : Nat}
    (hvalue : ¬value.Covers place)
    (hcontent : ∀ s, content = some s → ¬s.Holds (place + switch.length))
    (h : readPayload content value = .ok read) :
    ∀ s, read = some s → ¬s.Holds (place + switch.length) := by
  unfold readPayload at h
  split at h
  · cases h
    exact hcontent
  · obtain ⟨⟨data, next⟩, hdata, hend⟩ := ok_of_bind h
    cases hend
    obtain ⟨hpos, hstop, hlast⟩ := Head.element_places Head.frames_compact hdata
    intro s hs hholds
    split at hs
    · cases hs
      apply hvalue
      simp only [Span.Holds, Span.shift, Cursor.span, Cursor.stop, Cursor.Covers] at *
      omega
    · exact hcontent s hs hholds

/-- A field adds at most a content that the place is not in. -/
theorem readField_content_apart {draft read : Draft} {e : Tlv.Element} {place : Nat}
    (hheader : InHeader e place)
    (hcontent : ∀ s, draft.content = some s → ¬s.Holds (place + switch.length))
    (h : readField draft e = .ok read) :
    ∀ s, read.content = some s → ¬s.Holds (place + switch.length) := by
  unfold readField at h
  split at h
  · obtain ⟨details, -, hend⟩ := ok_of_bind h
    cases hend
    exact hcontent
  · rename_i hother
    split at h
    · obtain ⟨name, -, hend⟩ := ok_of_bind h
      cases hend
      exact hcontent
    · split at h
      · obtain ⟨content, hpayload, hend⟩ := ok_of_bind h
        cases hend
        exact readPayload_apart (fun hcovers => hother (hheader hcovers).1) hcontent hpayload
      · cases h
        exact hcontent

/-- The time to live in the details is the one byte of an optional header, and its place is noted. -/
def Noted (fields : Tlv.Elements) (d : IotDetails) : Prop :=
  ∀ ttl, d.ttl = some ttl → ∃ field ∈ fields.items, field.type = optionalHeaderType ∧
    ∃ part ∈ (Head.compact.elements field.value).items, part.value.rest = [ttl] ∧
      d.ttlOffset = part.value.pos + switch.length

theorem readOptionalHeader_noted {fields : Tlv.Elements} {field part : Tlv.Element}
    (hfield : field ∈ fields.items) (hheader : field.type = optionalHeaderType)
    (hpart : part ∈ (Head.compact.elements field.value).items) {d read : IotDetails}
    (hnoted : Noted fields d) (h : readOptionalHeader d part = .ok read) : Noted fields read := by
  by_cases hone : part.length = 1
  · obtain ⟨ttl, hrest⟩ := List.length_eq_one_iff.1 hone
    rw [readOptionalHeader_of_single hrest] at h
    cases h
    split
    · intro other hother
      cases hother
      exact ⟨field, hfield, hheader, part, hpart, hrest, rfl⟩
    · exact hnoted
  · rw [readOptionalHeader_of_length hone] at h
    cases h
    exact hnoted

theorem readField_noted {fields : Tlv.Elements} {field : Tlv.Element} (hfield : field ∈ fields.items)
    {draft read : Draft} (hnoted : Noted fields draft.details) (h : readField draft field = .ok read) :
    Noted fields read.details := by
  unfold readField at h
  split at h
  · rename_i hheader
    obtain ⟨details, hdetails, hend⟩ := ok_of_bind h
    cases hend
    exact Tlv.Elements.foldM_keeps (Noted fields)
      (fun _ hpart _ _ => readOptionalHeader_noted hfield hheader hpart) hnoted hdetails
  · split at h
    · obtain ⟨name, -, hend⟩ := ok_of_bind h
      cases hend
      exact hnoted
    · split at h
      · obtain ⟨content, -, hend⟩ := ok_of_bind h
        cases hend
        exact hnoted
      · cases h
        exact hnoted

/-- A time to live that the fields gave stands in them, and in no content. The fields with another
    byte in its place give what they gave, with this time to live. -/
theorem fields_put {value : Cursor} {draft : Draft} {ttl : UInt8} {offset : Nat}
    (h : (Head.compact.elements value).foldM {} readField = .ok draft)
    (hsaid : draft.details = ⟨some ttl, offset⟩) :
    ∃ place, offset = place + switch.length ∧ value.Covers place ∧
      (∀ whole, value.In whole → whole[place]? = some ttl) ∧
      (∀ s, draft.content = some s → ¬s.Holds offset) ∧
      ∀ b, (Head.compact.elements (value.put place b)).foldM {} readField =
        .ok { draft with details := ⟨some b, offset⟩ } := by
  have hnoted := Tlv.Elements.foldM_keeps (fun draft : Draft => Noted _ draft.details)
    (fun _ hf _ _ => readField_noted hf) (by simp [Noted]) h
  rw [hsaid] at hnoted
  obtain ⟨field, hfield, hheader, part, hpart, hsingle, hoffset⟩ := hnoted ttl rfl
  dsimp only at hoffset
  have hinPart := Cursor.covers_pos_of_single hsingle
  have hinField := Head.covers_of_mem_elements Head.frames_compact hpart hinPart
  -- No other field has the place, so none reads the byte as something else.
  have hheaders (f : Tlv.Element) (hf : f ∈ (Head.compact.elements value).items) :
      InHeader f part.value.pos := by
    intro hcovers
    obtain rfl := Head.eq_of_covers Head.frames_compact hf hfield hcovers hinField
    exact ⟨hheader, part, hpart, hinPart⟩
  refine ⟨part.value.pos, hoffset, Head.covers_of_mem_elements Head.frames_compact hfield hinField,
    fun whole hin => ?_, ?_, fun b => ?_⟩
  · have hplaced := Head.value_in_of_mem_elements Head.frames_compact
      (Head.value_in_of_mem_elements Head.frames_compact hin hfield) hpart
    exact hplaced.getElem?_pos hsingle
  · rw [hoffset]
    exact Tlv.Elements.foldM_keeps
      (fun draft : Draft => ∀ s, draft.content = some s → ¬s.Holds (part.value.pos + switch.length))
      (fun f hf _ _ => readField_content_apart (hheaders f hf)) (by simp) h
  · have hfold := (Head.compact.elements value).foldM_map (Draft.put · part.value.pos b)
      (·.put part.value.pos b) (fun f hf draft => readField_put (hheaders f hf) draft b) {}
    have hstart : ({} : Draft).put part.value.pos b = {} := by
      simp only [Draft.put, putTtl]
      rw [if_neg (by simp [switch, Switch.header])]
    have hput : draft.put part.value.pos b = { draft with details := ⟨some b, offset⟩ } := by
      simp only [Draft.put, putTtl, hsaid, if_pos hoffset]
    rw [Head.elements_put Head.frames_compact fun _ => ⟨field, hfield, hinField⟩]
    rw [hstart, h] at hfold
    rw [hfold, ← hput]
    rfl

/-- Bytes with another time to live are read as the packet with this time to live. -/
theorem decode_set {bytes : Bytes} {p : Packet} {n : Nat} {ttl : UInt8} {offset : Nat}
    (h : decode bytes = .ok (p, n)) (hdetails : p.details = .iot ⟨some ttl, offset⟩) :
    ∃ place, offset = place + switch.length ∧ bytes[place]? = some ttl ∧
      (∀ s, p.contentSpan? = some s → ¬s.Holds offset) ∧
      ∀ b, decode (bytes.set place b) =
        .ok (⟨switch ++ (bytes.set place b).take n, p.body, .iot ⟨some b, offset⟩⟩, n) := by
  obtain ⟨⟨e, next⟩, helement, hrest⟩ := ok_of_bind h
  dsimp only at hrest
  split at hrest
  · obtain ⟨⟨word, piece⟩, -, hend⟩ := ok_of_bind hrest
    split at hend
    · cases hend
      cases hdetails
    · cases hend
  · rename_i hfragment
    split at hrest
    · rename_i htype
      obtain ⟨draft, hfields, hend⟩ := ok_of_bind hrest
      split at hend
      · cases hend
      · rename_i name hname
        cases hend
        obtain ⟨place, hoffset, hcovers, hstands, hcontent, hput⟩ :=
          fields_put hfields (Details.iot.inj hdetails)
        refine ⟨place, hoffset, hstands bytes ?_, hcontent, fun b => ?_⟩
        · have hwhole : (Cursor.ofBytes bytes).In bytes := ⟨[], [], by simp [Cursor.ofBytes], rfl⟩
          exact (Head.element_in Head.frames_compact helement hwhole).1
        · have hread : Head.compact.element (.ofBytes (bytes.set place b)) =
              .ok (e.put place b, next.put place b) := by
            rw [← Cursor.put_ofBytes]
            exact Head.element_put Head.frames_compact helement fun _ => hcovers.1
          simp only [decode, hread, bind, Except.bind, Tlv.Element.put_type, if_neg hfragment,
            if_pos htype, Tlv.Element.put_value, hput, hname, Cursor.put_pos]
          rfl
    · cases hrest

theorem hopLimitAt {bytes : Bytes} {p : Packet} {n : Nat} {ttl : UInt8} {offset : Nat}
    (h : decode bytes = .ok (p, n)) (hdetails : p.details = .iot ⟨some ttl, offset⟩) :
    HopLimitAt .iot p n offset ttl := by
  have hframed := decode_framed h
  have hkept : p.bytes = switch ++ bytes.take n := hframed.kept
  have hlength : (bytes.take n).length = n := List.length_take_of_le hframed.inside
  -- The bytes that were taken give the packet without what followed them.
  have hown := hframed.again []
  rw [List.append_nil] at hown
  obtain ⟨place, rfl, hstands, hcontent, hset⟩ := decode_set hown hdetails
  have hplace : place + switch.length - switch.length = place := Nat.add_sub_cancel _ _
  have hbehind : switch.length ≤ place + switch.length := Nat.le_add_left _ _
  refine ⟨?_, hcontent, fun b => ?_⟩
  · rw [hkept, List.getElem?_append_right hbehind, hplace, hstands]
  · have hall : ((bytes.take n).set place b).take n = (bytes.take n).set place b :=
      List.take_of_length_le (by rw [List.length_set, hlength])
    have hread := hset b
    rw [hall] at hread
    rw [hkept, List.set_append_right _ _ hbehind, hplace, Suite.decodeBehindSwitch, switch,
      Switch.dropFrom_header, hdetails]
    exact hread

end Iot

/-! ## All suites -/

/-- Where a packet that was read has a hop limit, there it stands. -/
theorem Suite.hopLimitAt {suite : Suite} {bytes : Bytes} {p : Packet} {n offset : Nat} {limit : UInt8}
    (h : suite.decode bytes = .ok (p, n)) (hlimit : p.hopLimit? = some (offset, limit)) :
    HopLimitAt suite p n offset limit := by
  have hsuite : p.details.suite = suite := (decode_framed h).ofSuite
  rcases p.hopLimit?_cases with ⟨d, hdetails, hthis⟩ | ⟨ttl, place, hdetails, hthis⟩ | ⟨-, -, hthis⟩
  · cases hthis.symm.trans hlimit
    rw [hdetails] at hsuite
    cases hsuite
    exact Ccnx.hopLimitAt h hdetails
  · cases hthis.symm.trans hlimit
    rw [hdetails] at hsuite
    cases hsuite
    exact Iot.hopLimitAt h hdetails
  · cases hthis.symm.trans hlimit

end NameRelay
