-- SUMMARY: Contents and interests of every suite are read as what was written.
import NameRelay.Codec
import NameRelay.Proofs.Format.Ccnb.Packet
import NameRelay.Proofs.Format.Ccnx
import NameRelay.Proofs.Format.Cisco
import NameRelay.Proofs.Format.Iot
import NameRelay.Proofs.Format.Ndn

/-!
# Round trips

Whatever a suite writes for a content or an interest, the same suite reads back behind any encoding
switch: all bytes, the name, the content, and every option that the suite carries. The writers may
refuse, but what they write is never read as something else.
-/

namespace NameRelay

/-- The name of the seventh chunk of something that is promised, a marker for each of its flags. -/
def promisedChunk : Name := ⟨.ndn, [[0x61], [0x00, 0x07]], some 7, ⟨true, true⟩⟩

theorem restorable_promisedChunk : promisedChunk.Restorable where
  built := by
    have hvalues : Name.ofValues .ndn [[0x61]] = .ok ⟨.ndn, [[0x61]], none, .none⟩ := rfl
    have hchunk : Name.withChunk ⟨.ndn, [[0x61]], none, .none⟩ 7 =
        .ok ⟨.ndn, [[0x61], [0x00, 0x07]], some 7, .none⟩ := rfl
    exact ((Name.Built.ofValues hvalues).withChunk hchunk).withFlags ⟨true, true⟩
  flags := fun _ => rfl
  room := by decide
  noNfn := nofun
  noThunk := nofun

theorem eq_ok_of_toOption {ε α : Type} {x : Except ε α} {a : α} (h : x.toOption = some a) :
    x = .ok a := by
  cases x with
  | error e => cases h
  | ok b =>
    cases h
    rfl

/-! ## Contents -/

/-- The details of a content with these options. -/
def ContentOptions.details (o : ContentOptions) : Suite → Details
  | .ccnb => .ccnb { finalBlock := o.finalBlock }
  | .ccnx => .ccnx ⟨o.hopLimit.getD 255, o.finalBlock⟩
  | .cisco => .cisco ⟨o.hopLimit.getD 64, o.finalBlock⟩
  | .iot => .iot {}
  | .ndn => .ndn { freshness := o.freshness, finalBlock := o.finalBlock }

namespace Suite

/-- A content is read as the content that was written. -/
theorem content_roundTrip {name : Name} (h : name.Restorable)
    (hcomponents : ∀ wire ∈ name.components, wire.length < 2 ^ 53) {payload : Bytes}
    (hpayload : payload.length < 2 ^ 53) {o : ContentOptions} {bytes : Bytes}
    (hok : name.suite.encodeContent name payload o = .ok bytes) :
    ∃ packet : Packet,
      name.suite.decodeBehindSwitch bytes = .ok (packet, (Switch.dropFrom bytes).length) ∧
      packet.bytes = bytes ∧ (∃ span, packet.body = .message .content name (some span)) ∧
      packet.content? = some payload ∧ packet.details = o.details name.suite := by
  have hroom := Write.roomFor_lt h.length_components_le hcomponents hpayload
  have hwires := Name.length_lt_of_mem_wireComponents (by decide) hcomponents
  have hread : ∃ span : Span, name.suite.decode (Switch.dropFrom bytes) =
      .ok (⟨bytes, .message .content name (some span), o.details name.suite⟩,
        (Switch.dropFrom bytes).length) ∧ span.of bytes = payload := by
    cases hsuite : name.suite with
    | ccnb =>
      rw [hsuite] at hok
      exact Ccnb.decode_encodeContent h hsuite hwires hpayload hok
    | ccnx =>
      rw [hsuite] at hok
      exact Ccnx.decode_encodeContent h hsuite hok
    | cisco =>
      rw [hsuite] at hok
      exact Cisco.decode_encodeContent h hsuite hok
    | iot =>
      rw [hsuite] at hok
      exact Iot.decode_encodeContent (o := o) h hsuite hroom hok
    | ndn =>
      rw [hsuite] at hok
      exact Ndn.decode_encodeContent h hsuite hroom hok
  obtain ⟨span, hdecode, rfl⟩ := hread
  exact ⟨_, hdecode, rfl, ⟨span, rfl⟩, rfl, rfl⟩

theorem content_roundTrip_promisedChunk :
    ∃ bytes packet,
      Suite.ndn.encodeContent promisedChunk [1, 2, 3] { finalBlock := some 300 } = .ok bytes ∧
      Suite.ndn.decodeBehindSwitch bytes = .ok (packet, (Switch.dropFrom bytes).length) ∧
      packet.content? = some [1, 2, 3] ∧ packet.details.finalBlock = some 300 := by
  have hok : Suite.ndn.encodeContent promisedChunk [1, 2, 3] { finalBlock := some 300 } =
      .ok [6, 42, 7, 19, 8, 1, 97, 8, 2, 0, 7, 8, 5, 84, 72, 85, 78, 75, 8, 3, 78, 70, 78, 20, 7, 26,
        5, 8, 3, 0, 1, 44, 21, 3, 1, 2, 3, 22, 3, 27, 1, 0, 23, 0] := eq_ok_of_toOption (by decide +kernel)
  obtain ⟨packet, hread, -, -, hcontent, hdetails⟩ :=
    content_roundTrip restorable_promisedChunk (by decide) (by decide) hok
  refine ⟨_, packet, hok, hread, hcontent, ?_⟩
  rw [hdetails]
  rfl

end Suite

/-! ## Interests -/

/-- The details say what was asked for, as far as their suite carries it. -/
def InterestOptions.ToldBy (o : InterestOptions) : Details → Prop
  | .ccnb d =>
    d.nonce = o.nonce ∧ d.publisherKey = o.publisherKey ∧ d.minSuffix = o.minSuffix.getD 0 ∧
      d.maxSuffix = o.maxSuffix.getD 64
  | .ccnx d => d.hopLimit = o.hopLimit.getD 64
  | .cisco d => d.hopLimit = o.hopLimit.getD 64
  | .iot d => d.ttl = some (o.hopLimit.getD 5)
  | .ndn d =>
    (∃ nonce, d.nonce = some nonce ∧ (o.nonce = some nonce ∨ o.nonce = none ∧ nonce.length = 4)) ∧
      d.minSuffix = o.minSuffix.getD 0 ∧ d.maxSuffix = o.maxSuffix.getD 64 ∧
      d.mustBeFresh = o.mustBeFresh ∧ d.lifetime = o.lifetime ∧
      d.scope = o.scope.elim 3 fun s => if s ≤ 2 then s.toUInt64 else 3

theorem Ndn.toldBy_interestDetails (name : Name) (o : InterestOptions) :
    o.ToldBy (.ndn (Ndn.interestDetails name o)) := by
  refine ⟨⟨_, rfl, ?_⟩, rfl, rfl, rfl, rfl, ?_⟩
  · cases o.nonce with
    | none => exact .inr ⟨rfl, length_bigEndian 4 _⟩
    | some nonce => exact .inl rfl
  · rw [Ndn.interestDetails, Ndn.writtenScope]
    cases o.scope with
    | none => rfl
    | some s =>
      by_cases hs : s ≤ 2 <;> simp [Option.filter, hs]

namespace Suite

/-- An interest is read as the interest that was written. Where it says how far it may travel, the
    packet knows the byte that says so: an interest with another limit has another byte there and is
    the same elsewhere. -/
theorem interest_roundTrip {name : Name} (h : name.Restorable)
    (hcomponents : ∀ wire ∈ name.components, wire.length < 2 ^ 53) {o : InterestOptions}
    {bytes : Bytes} (hok : name.suite.encodeInterest name o = .ok bytes) :
    ∃ packet : Packet,
      name.suite.decodeBehindSwitch bytes = .ok (packet, (Switch.dropFrom bytes).length) ∧
      packet.bytes = bytes ∧ packet.body = .message .interest name none ∧
      packet.suite = name.suite ∧ o.ToldBy packet.details ∧
      ∀ d, packet.details = .iot d → packet.bytes[d.ttlOffset]? = d.ttl ∧
        ∀ t, name.suite.encodeInterest name { o with hopLimit := some t } =
          .ok (packet.bytes.set d.ttlOffset t) := by
  have hroom := @Write.roomFor_lt name 0 h.length_components_le hcomponents (by decide)
  have hwires := Name.length_lt_of_mem_wireComponents (by decide) hcomponents
  rw [decodeBehindSwitch]
  cases hsuite : name.suite with
  | ccnb =>
    rw [hsuite] at hok
    refine ⟨_, Ccnb.decode_encodeInterest h hsuite hwires hok, rfl, rfl, rfl, ?_, nofun⟩
    exact ⟨rfl, rfl, rfl, rfl⟩
  | ccnx =>
    rw [hsuite] at hok
    exact ⟨_, Ccnx.decode_encodeInterest h hsuite hok, rfl, rfl, rfl, rfl, nofun⟩
  | cisco =>
    rw [hsuite] at hok
    exact ⟨_, Cisco.decode_encodeInterest h hsuite hok, rfl, rfl, rfl, rfl, nofun⟩
  | iot =>
    rw [hsuite] at hok
    obtain ⟨offset, hdecode, hbyte, hset⟩ := Iot.decode_encodeInterest h hsuite hroom hok
    refine ⟨_, hdecode, rfl, rfl, rfl, rfl, ?_⟩
    intro d hd
    cases hd
    exact ⟨hbyte, hset⟩
  | ndn =>
    rw [hsuite] at hok
    refine ⟨_, Ndn.decode_encodeInterest h hsuite hroom hok, rfl, rfl, rfl, ?_, nofun⟩
    exact Ndn.toldBy_interestDetails name o

theorem interest_roundTrip_promisedChunk :
    ∃ bytes packet, Suite.ndn.encodeInterest promisedChunk
        { nonce := some [1, 2, 3, 4], minSuffix := some 1, scope := some 2 } = .ok bytes ∧
      Suite.ndn.decodeBehindSwitch bytes = .ok (packet, (Switch.dropFrom bytes).length) ∧
      packet.body = .message .interest promisedChunk none := by
  have hok : Suite.ndn.encodeInterest promisedChunk
      { nonce := some [1, 2, 3, 4], minSuffix := some 1, scope := some 2 } =
        .ok [5, 35, 7, 19, 8, 1, 97, 8, 2, 0, 7, 8, 5, 84, 72, 85, 78, 75, 8, 3, 78, 70, 78, 9, 3, 13,
          1, 1, 10, 4, 1, 2, 3, 4, 11, 1, 2] := eq_ok_of_toOption (by decide +kernel)
  obtain ⟨packet, hread, -, hbody, -⟩ := interest_roundTrip restorable_promisedChunk (by decide) hok
  exact ⟨_, packet, hok, hread, hbody⟩

end Suite

end NameRelay
