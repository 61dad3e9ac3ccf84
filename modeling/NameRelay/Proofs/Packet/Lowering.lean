-- SUMMARY: Lowering the hop limit of a packet that was read is reading it with the lower limit.
import NameRelay.Packet.Hashed
import NameRelay.Proofs.Format.HopLimit

/-!
# Packets that are handed on

A packet that is handed on has its hop limit lowered without being written anew. A packet that was
read is refused only for want of hops, and otherwise agrees with its own bytes as it did before: they
are read as this packet, and a digest is one of these bytes.
-/

namespace NameRelay

/-- Lowering writes over the byte of the hop limit, if a hop is left. -/
theorem Packet.withLoweredHopLimit_eq {p : Packet} {offset : Nat} {limit : UInt8}
    (hlimit : p.hopLimit? = some (offset, limit)) (hstands : p.bytes[offset]? = some limit) :
    p.withLoweredHopLimit = if limit ≤ 1 then none else
      some ⟨p.bytes.set offset (limit - 1), p.body, p.details.withHopLimit (limit - 1)⟩ := by
  obtain ⟨hinside, -⟩ := List.getElem?_eq_some_iff.1 hstands
  simp only [withLoweredHopLimit, hlimit, withByteReplaced, if_pos hinside, Option.map_some]

namespace HashedPacket

/-- The packet is `p` with one hop less, in its bytes and in what they say, and nothing is remembered
    of the digest of `p`. -/
structure Lowered (suite : Suite) (p : Packet) (n : Nat) (limit lower : UInt8) (q : HashedPacket) :
    Prop where
  one_less : lower.toNat + 1 = limit.toNat
  positive : 1 ≤ lower
  one_byte : ∃ front back, p.bytes = front ++ limit :: back ∧ q.packet.bytes = front ++ lower :: back
  body : q.packet.body = p.body
  content : q.packet.content? = p.content?
  details : q.packet.details = p.details.withHopLimit lower
  reread : suite.decodeBehindSwitch q.packet.bytes = .ok (q.packet, n)
  digest : ∀ hash, (q.digestWith hash).1 = hash q.packet.bytes

/-- The digest of a packet of which none is remembered is computed. -/
theorem digestWith_fresh (p : Packet) (hash : Bytes → Option Bytes) :
    ((fresh p).digestWith hash).1 = hash p.bytes := by
  simp only [digestWith, fresh]
  cases hash p.bytes <;> rfl

/-- A packet whose hop limit stands in its bytes is handed on with one hop less, if any is left. -/
theorem withLoweredHopLimit_of_hopLimitAt {suite : Suite} {p : Packet} {n offset : Nat}
    {limit : UInt8} (digest? : Option Bytes) (hlimit : p.hopLimit? = some (offset, limit))
    (hat : HopLimitAt suite p n offset limit) :
    ((⟨p, digest?⟩ : HashedPacket).withLoweredHopLimit = none ↔ limit ≤ 1) ∧
      ∀ q, (⟨p, digest?⟩ : HashedPacket).withLoweredHopLimit = some q →
        ∃ lower, Lowered suite p n limit lower q := by
  have hlowered : (⟨p, digest?⟩ : HashedPacket).withLoweredHopLimit =
      p.withLoweredHopLimit.map fresh := by
    simp only [withLoweredHopLimit, hlimit]
  rw [hlowered, Packet.withLoweredHopLimit_eq hlimit hat.stands]
  by_cases hused : limit ≤ 1
  · simp [hused]
  rw [if_neg hused]
  refine ⟨by simp [hused], fun q hq => ⟨limit - 1, ?_⟩⟩
  cases hq
  have hhops : 1 < limit.toNat := Nat.not_le.1 hused
  have hless : (limit - 1).toNat = limit.toNat - 1 := UInt8.toNat_sub_of_le _ _ (Nat.le_of_lt hhops)
  obtain ⟨hinside, hstands⟩ := List.getElem?_eq_some_iff.1 hat.stands
  constructor
  case one_less => omega
  case positive =>
    rw [UInt8.le_iff_toNat_le, hless]
    exact Nat.le_sub_one_of_lt hhops
  case one_byte =>
    refine ⟨p.bytes.take offset, p.bytes.drop (offset + 1), ?_, ?_⟩
    · rw [← hstands, ← List.drop_eq_getElem_cons hinside, List.take_append_drop]
    · exact List.set_eq_take_append_cons_drop.trans (if_pos hinside)
  case body => rfl
  case content =>
    exact Option.map_congr fun s hs => Span.of_set (hat.apart s hs) _ _
  case details => rfl
  case reread => exact hat.reread _
  case digest => exact digestWith_fresh _

/-- Lowering the hop limit commutes with reading. Whatever bytes are read as a packet, and whatever
    is remembered of its digest, the packet is not handed on just if it is a CCNx packet with a hop
    limit of at most one, or an IOT packet with such a time to live. Otherwise a packet with one of
    these is handed on with one byte changed. Behind the switch that it keeps it is read as it is
    handed on, with one hop less, and its digest is one of its own bytes. Any other packet is handed
    on as it is. -/
theorem withLoweredHopLimit_of_decode {suite : Suite} {bytes : Bytes} {p : Packet} {n : Nat}
    (hread : suite.decode bytes = .ok (p, n)) (digest? : Option Bytes) :
    ((⟨p, digest?⟩ : HashedPacket).withLoweredHopLimit = none ↔
      (∃ d, p.details = .ccnx d ∧ d.hopLimit ≤ 1) ∨
        ∃ ttl offset, p.details = .iot ⟨some ttl, offset⟩ ∧ ttl ≤ 1) ∧
    ∀ q, (⟨p, digest?⟩ : HashedPacket).withLoweredHopLimit = some q →
      (∀ d, p.details = .ccnx d → ∃ lower, Lowered suite p n d.hopLimit lower q) ∧
      (∀ ttl offset, p.details = .iot ⟨some ttl, offset⟩ → ∃ lower, Lowered suite p n ttl lower q) ∧
      ((∀ d, p.details ≠ .ccnx d) → (∀ ttl offset, p.details ≠ .iot ⟨some ttl, offset⟩) →
        q = ⟨p, digest?⟩) := by
  rcases p.hopLimit?_cases with ⟨d, hdetails, hlimit⟩ | ⟨ttl, offset, hdetails, hlimit⟩ |
    ⟨hccnx, hiot, hlimit⟩
  · obtain ⟨hnone, hsome⟩ := withLoweredHopLimit_of_hopLimitAt digest? hlimit
      (Suite.hopLimitAt hread hlimit)
    refine ⟨by simp [hnone, hdetails], fun q hq => ⟨?_, ?_, fun hother _ => ?_⟩⟩
    · intro d' hd
      cases hdetails.symm.trans hd
      exact hsome q hq
    · intro ttl offset hd
      cases hdetails.symm.trans hd
    · exact absurd hdetails (hother d)
  · obtain ⟨hnone, hsome⟩ := withLoweredHopLimit_of_hopLimitAt digest? hlimit
      (Suite.hopLimitAt hread hlimit)
    refine ⟨by simp [hnone, hdetails], fun q hq => ⟨?_, ?_, fun _ hother => ?_⟩⟩
    · intro d hd
      cases hdetails.symm.trans hd
    · intro ttl' offset' hd
      cases hdetails.symm.trans hd
      exact hsome q hq
    · exact absurd hdetails (hother ttl offset)
  · have hsame : (⟨p, digest?⟩ : HashedPacket).withLoweredHopLimit = some ⟨p, digest?⟩ := by
      simp only [withLoweredHopLimit, hlimit]
    rw [hsame]
    refine ⟨by simp [hccnx, hiot], fun q hq => ⟨?_, ?_, fun _ _ => (Option.some.inj hq).symm⟩⟩
    · exact fun d hdetails => absurd hdetails (hccnx d)
    · exact fun ttl offset hdetails => absurd hdetails (hiot ttl offset)

/-- An interest for `/a` with two hop limits, of which the second counts, and with some digest that
    is not its own. -/
theorem withLoweredHopLimit_two_limits : ∃ p q,
    Suite.iot.decode [138, 2, 1, 9, 2, 1, 5, 67, 2, 65, 97] = .ok (p, 11) ∧
      (⟨p, some [0]⟩ : HashedPacket).withLoweredHopLimit = some q ∧
      q.packet.bytes = [128, 3, 138, 2, 1, 9, 2, 1, 4, 67, 2, 65, 97] ∧
      Suite.iot.decodeBehindSwitch q.packet.bytes = .ok (q.packet, 11) ∧
      ∀ hash, (q.digestWith hash).1 = hash q.packet.bytes := by
  have hread : Suite.iot.decode [138, 2, 1, 9, 2, 1, 5, 67, 2, 65, 97] =
      .ok (⟨[128, 3, 138, 2, 1, 9, 2, 1, 5, 67, 2, 65, 97],
        .message .interest ⟨.iot, [[97]], none, .none⟩ none, .iot ⟨some 5, 8⟩⟩, 11) := by
    cbv
  have hlowered : (⟨⟨[128, 3, 138, 2, 1, 9, 2, 1, 5, 67, 2, 65, 97],
      .message .interest ⟨.iot, [[97]], none, .none⟩ none, .iot ⟨some 5, 8⟩⟩, some [0]⟩ :
        HashedPacket).withLoweredHopLimit =
      some ⟨⟨[128, 3, 138, 2, 1, 9, 2, 1, 4, 67, 2, 65, 97],
        .message .interest ⟨.iot, [[97]], none, .none⟩ none, .iot ⟨some 4, 8⟩⟩, none⟩ := by
    decide
  obtain ⟨lower, hq⟩ :=
    ((withLoweredHopLimit_of_decode hread (some [0])).2 _ hlowered).2.1 5 8 rfl
  exact ⟨_, _, hread, hlowered, rfl, hq.reread, hq.digest⟩

end HashedPacket

end NameRelay
