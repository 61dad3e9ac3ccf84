-- SUMMARY: A reassembler is bounded but for the fragments that open their packets.
import NameRelay.Proofs.Fragment.History

/-!
# The bound on packets

A fragment that continues a packet is refused if the packet became longer than packets may be with
it. A fragment that opens its packet is taken as it is, however long it is. So a reassembler holds too
many bytes just when the last fragment that came opened a packet and was too long by itself, and it
hands over too many just when that fragment is its whole packet.
-/

namespace NameRelay

/-- The fragment stands at this place in its packet and is by itself longer than a packet may be. -/
structure Fragment.Overlong (a : Fragment) (position : FragmentPosition) : Prop where
  position : a.header.position = position
  length : maxPacketSize < a.piece.length

/-- What was begun is too long just if it is a single fragment that is. -/
theorem Series.Begun.bytes_overlong_iff {front : List Fragment} {p : PartialPacket} (h : Begun front p) :
    maxPacketSize < p.bytes.length ↔ ∃ a, front = [a] ∧ a.Overlong .first := by
  cases h with
  | @first a hposition =>
    constructor
    · exact fun hlong => ⟨a, rfl, hposition, hlong⟩
    · rintro ⟨b, ⟨⟩, hlong⟩
      exact hlong.length
  | @middle before q a hbefore hposition htakes =>
    have hroom : (q.extended a).bytes.length ≤ maxPacketSize := by
      rw [PartialPacket.extended, List.length_append]
      exact htakes.room
    refine iff_of_false (Nat.not_lt_of_le hroom) ?_
    rintro ⟨b, hsingle, hlong⟩
    -- a middle fragment is not a first one
    have hlast := congrArg List.getLast? hsingle
    rw [List.getLast?_concat, List.getLast?_singleton] at hlast
    cases hlast
    cases hposition.symm.trans hlong.position

namespace Reassembler

/-- The bytes that were collected. -/
def held (r : Reassembler) : Bytes := (r.current.map (·.bytes)).getD []

theorem overlong_held_iff (r : Reassembler) : maxPacketSize < r.held.length ↔
    ∃ p, r.current = some p ∧ maxPacketSize < p.bytes.length := by
  obtain ⟨_ | p⟩ := r
  · simp [held]
  · simp [held]

/-- Whatever packets a fresh reassembler was fed, it holds more bytes than a packet may have just if
    the last fragment opened a packet and has too many by itself, and it hands over more just for a
    single fragment that has too many. -/
theorem overlong_iff (packets : List Packet) :
    (maxPacketSize < (idle.after packets).held.length ↔
      ∃ a, (fragmentsOf packets).getLast? = some a ∧ a.Overlong .first) ∧
    ∀ packet, (∃ bytes, ((idle.after packets).accept packet).whole = some bytes ∧
        maxPacketSize < bytes.length) ↔
      ∃ a, packet.asFragment? = some a ∧ a.Overlong .single := by
  constructor
  · rw [overlong_held_iff]
    constructor
    · rintro ⟨p, hp, hlong⟩
      obtain ⟨front, hrecent, hbegun⟩ := (current_after_iff packets p).1 hp
      obtain ⟨a, rfl, hover⟩ := hbegun.bytes_overlong_iff.1 hlong
      obtain ⟨earlier, hall⟩ := hrecent
      exact ⟨a, by rw [← hall, List.getLast?_concat], hover⟩
    · rintro ⟨a, hlast, hover⟩
      have hrecent : [a] <:+ fragmentsOf packets :=
        ⟨(fragmentsOf packets).dropLast, List.dropLast_append_getLast? a hlast⟩
      have hbegun := Series.Begun.first hover.position
      exact ⟨_, (current_after_iff packets _).2 ⟨[a], hrecent, hbegun⟩,
        hbegun.bytes_overlong_iff.2 ⟨a, rfl, hover⟩⟩
  · intro packet
    cases hfragment : packet.asFragment? with
    | none => simp [accept_of_message _ hfragment]
    | some a =>
      constructor
      · rintro ⟨bytes, hwhole, hlong⟩
        rcases (whole_accept_iff _ hfragment bytes).1 hwhole with
          ⟨hposition, rfl⟩ | ⟨-, p, -, htakes, rfl⟩
        · exact ⟨a, rfl, hposition, hlong⟩
        · rw [List.length_append] at hlong
          exact absurd htakes.room (Nat.not_le_of_lt hlong)
      · rintro ⟨_, ⟨⟩, hover⟩
        exact ⟨a.piece, (whole_accept_iff _ hfragment _).2 (.inl ⟨hover.position, rfl⟩),
          hover.length⟩

/-- A fragment of one byte more than a packet may have is held if it is a first one, and handed over
    if it is a single one. -/
theorem long_piece_kept :
    let fragment (position : FragmentPosition) : Packet :=
      ⟨List.replicate 8097 0, .fragment ⟨position, 0⟩ ⟨0, 8097⟩, .ndn {}⟩
    maxPacketSize < (idle.after [fragment .first]).held.length ∧
      ∃ bytes, (idle.accept (fragment .single)).whole = some bytes ∧
        maxPacketSize < bytes.length := by
  intro fragment
  have hspan : Span.of ⟨0, 8097⟩ (List.replicate 8097 0) = List.replicate 8097 0 :=
    List.take_of_length_le (Nat.le_of_eq List.length_replicate)
  have hpiece (position : FragmentPosition) : (fragment position).asFragment? =
      some ⟨.ndn, ⟨position, 0⟩, List.replicate 8097 0⟩ :=
    Packet.asFragment?_of_body rfl rfl hspan
  have hlong (position : FragmentPosition) :
      Fragment.Overlong ⟨.ndn, ⟨position, 0⟩, List.replicate 8097 0⟩ position :=
    ⟨rfl, Nat.lt_of_lt_of_eq (by decide) List.length_replicate.symm⟩
  have hfirst : (fragmentsOf [fragment .first]).getLast? =
      some ⟨.ndn, ⟨.first, 0⟩, List.replicate 8097 0⟩ := by
    rw [fragmentsOf, List.filterMap_cons_some (hpiece .first)]
    rfl
  exact ⟨(overlong_iff [fragment .first]).1.2 ⟨_, hfirst, hlong .first⟩,
    ((overlong_iff []).2 (fragment .single)).2 ⟨_, hpiece .single, hlong .single⟩⟩

end Reassembler

end NameRelay
