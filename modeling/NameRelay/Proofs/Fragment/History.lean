-- SUMMARY: A reassembler hands over a single fragment or a whole series, whatever it was fed before.
import Mathlib.Data.List.Chain
import NameRelay.Fragment.Reassembler

/-!
# Reassembly over any history

Packets may be lost, repeated, reordered and mixed on their way, so a reassembler may be fed any
packets in any order. What it has collected is decided by its history: `Series.Begun` says of some
fragments that they open a packet and go on with it, and a reassembler holds a partial packet exactly
if the most recent fragments of its history have begun it. What it hands over are then the pieces of
a whole series, none left out and none from elsewhere.
-/

namespace NameRelay

/-- A fragment as it came: its suite, what it says of itself, and its piece of a packet. -/
structure Fragment where
  suite : Suite
  header : FragmentHeader
  piece : Bytes

/-- The packet as a fragment, if it is one. -/
def Packet.asFragment? (p : Packet) : Option Fragment :=
  match p.body with
  | .message _ _ _ => none
  | .fragment header span => some ⟨p.suite, header, span.of p.bytes⟩

theorem Packet.asFragment?_of_body {p : Packet} {suite : Suite} {header : FragmentHeader}
    {span : Span} {piece : Bytes} (hsuite : p.suite = suite)
    (hbody : p.body = .fragment header span) (hpiece : span.of p.bytes = piece) :
    p.asFragment? = some ⟨suite, header, piece⟩ := by
  rw [asFragment?, hbody, ← hsuite, ← hpiece]

/-! ## Series of fragments -/

/-- `b` comes next after `a`: it is from the same suite and has the next number. -/
def Fragment.Precedes (a b : Fragment) : Prop :=
  b.suite = a.suite ∧
    b.header.seqno.toNat = (a.header.seqno.toNat + 1) % FragmentHeader.seqnoModulus

namespace Series

/-- The positions of fragments in their packets. -/
def positions (fragments : List Fragment) : List FragmentPosition :=
  fragments.map (·.header.position)

/-- The pieces of fragments in order. -/
def whole (fragments : List Fragment) : Bytes := (fragments.map (·.piece)).flatten

/-- The fragments of one packet: a first one, any number of middle ones and a last one, each next
    after the one before it. -/
structure Complete (fragments : List Fragment) : Prop where
  positions : ∃ middles, positions fragments = .first :: (List.replicate middles .middle ++ [.last])
  inSequence : fragments.IsChain Fragment.Precedes

@[simp] theorem length_positions (fragments : List Fragment) :
    (positions fragments).length = fragments.length := List.length_map _

@[simp] theorem positions_concat (fragments : List Fragment) (a : Fragment) :
    positions (fragments ++ [a]) = positions fragments ++ [a.header.position] := List.map_append

theorem positions_eq_concat_iff {fragments : List Fragment} {front : List FragmentPosition}
    {position : FragmentPosition} : positions fragments = front ++ [position] ↔
      ∃ before a, fragments = before ++ [a] ∧ positions before = front ∧
        a.header.position = position := by
  constructor
  · intro h
    obtain ⟨before, one, rfl, hbefore, hone⟩ := List.map_eq_append_iff.1 h
    obtain ⟨a, rfl, hposition⟩ := List.map_eq_singleton_iff.1 hone
    exact ⟨before, a, rfl, hbefore, hposition⟩
  · rintro ⟨before, a, rfl, rfl, rfl⟩
    exact positions_concat before a

@[simp] theorem whole_concat (fragments : List Fragment) (a : Fragment) :
    whole (fragments ++ [a]) = whole fragments ++ a.piece := by simp [whole]

end Series

/-! ## What one fragment does -/

namespace PartialPacket

/-- What is collected with the first fragment of a packet. -/
def opened (a : Fragment) : PartialPacket := ⟨a.suite, Reassembler.following a.header.seqno, a.piece⟩

/-- What is collected with one fragment more. -/
def extended (p : PartialPacket) (a : Fragment) : PartialPacket :=
  ⟨a.suite, Reassembler.following a.header.seqno, p.bytes ++ a.piece⟩

/-- The fragment is the one that comes next, and the packet does not become too long with it. -/
structure Takes (p : PartialPacket) (a : Fragment) : Prop where
  seqno : p.expected = a.header.seqno
  suite : p.suite = a.suite
  room : p.bytes.length + a.piece.length ≤ maxPacketSize

end PartialPacket

namespace Reassembler

variable {packet : Packet} {a : Fragment}

/-- A packet that is not a fragment passes by. -/
theorem accept_of_message (r : Reassembler) (h : packet.asFragment? = none) :
    r.accept packet = { next := r } := by
  obtain ⟨bytes, _ | _, details⟩ := packet
  · rfl
  · cases h

theorem accept_of_fragment (r : Reassembler) (h : packet.asFragment? = some a) :
    r.accept packet = match a.header.position with
      | .single => { next := idle, whole := some a.piece }
      | .first =>
        { next := ⟨some (.opened a)⟩, note := if r.isIdle then none else some .incomplete }
      | .middle | .last => r.extend a.suite a.header a.piece := by
  obtain ⟨bytes, _ | _, details⟩ := packet
  · cases h
  · cases h
    rfl

/-- The fragment that a reassembler waits for is taken. -/
theorem extend_of_takes {p : PartialPacket} (h : p.Takes a) :
    extend ⟨some p⟩ a.suite a.header a.piece =
      if a.header.position.closes then { next := idle, whole := some (p.bytes ++ a.piece) }
      else { next := ⟨some (p.extended a)⟩ } := by
  have hnext : ¬(p.expected ≠ a.header.seqno ∨ p.suite ≠ a.suite) :=
    not_or.2 ⟨not_not.2 h.seqno, not_not.2 h.suite⟩
  rw [extend]
  dsimp only
  rw [if_neg hnext, if_neg (Nat.not_lt_of_le h.room)]
  rfl

/-- A first fragment opens a packet, whatever was collected before. -/
theorem accept_of_first (r : Reassembler) (h : packet.asFragment? = some a)
    (hposition : a.header.position = .first) :
    r.accept packet =
      { next := ⟨some (.opened a)⟩, note := if r.isIdle then none else some .incomplete } := by
  rw [accept_of_fragment r h, hposition]

/-- The middle fragment that a reassembler waits for is collected. -/
theorem accept_of_middle {p : PartialPacket} (h : packet.asFragment? = some a)
    (hposition : a.header.position = .middle) (htakes : p.Takes a) :
    accept ⟨some p⟩ packet = { next := ⟨some (p.extended a)⟩ } := by
  rw [accept_of_fragment _ h, hposition]
  dsimp only
  rw [extend_of_takes htakes, hposition]
  rfl

/-- The last fragment that a reassembler waits for completes the packet. -/
theorem accept_of_last {p : PartialPacket} (h : packet.asFragment? = some a)
    (hposition : a.header.position = .last) (htakes : p.Takes a) :
    accept ⟨some p⟩ packet = { next := idle, whole := some (p.bytes ++ a.piece) } := by
  rw [accept_of_fragment _ h, hposition]
  dsimp only
  rw [extend_of_takes htakes, hposition]
  rfl

/-- Any other fragment empties the reassembler. -/
theorem extend_of_not_takes {r : Reassembler} (h : ∀ p, r.current = some p → ¬p.Takes a) :
    (r.extend a.suite a.header a.piece).next = idle ∧
      (r.extend a.suite a.header a.piece).whole = none := by
  obtain ⟨_ | p⟩ := r
  · exact ⟨rfl, rfl⟩
  · rw [extend]
    dsimp only
    split
    · exact ⟨rfl, rfl⟩
    · rename_i hnext
      obtain ⟨hseqno, hsuite⟩ := not_or.1 hnext
      split
      · exact ⟨rfl, rfl⟩
      · rename_i hroom
        exact absurd ⟨not_not.1 hseqno, not_not.1 hsuite, Nat.le_of_not_lt hroom⟩ (h p rfl)

/-- When a reassembler is in the middle of a packet behind a fragment. -/
theorem current_accept_iff (r : Reassembler) (h : packet.asFragment? = some a) (q : PartialPacket) :
    (r.accept packet).next.current = some q ↔
      a.header.position = .first ∧ q = .opened a ∨
      a.header.position = .middle ∧ ∃ p, r.current = some p ∧ p.Takes a ∧ q = p.extended a := by
  rw [accept_of_fragment r h]
  by_cases htakes : ∃ p, r.current = some p ∧ p.Takes a
  · obtain ⟨p, hp, htakes⟩ := htakes
    obtain ⟨current⟩ := r
    cases hp
    cases hposition : a.header.position <;>
      simp [extend_of_takes htakes, hposition, FragmentPosition.closes, idle, htakes,
        eq_comm (a := q)]
  · obtain ⟨hnext, -⟩ := extend_of_not_takes fun p hp ht => htakes ⟨p, hp, ht⟩
    have hnone : ∀ p, r.current = some p → p.Takes a → False := fun p hp ht => htakes ⟨p, hp, ht⟩
    cases hposition : a.header.position <;> simp [hnext, idle, eq_comm (a := q)]
    exact fun p hp ht => (hnone p hp ht).elim

/-- When a fragment completes a packet, and which. -/
theorem whole_accept_iff (r : Reassembler) (h : packet.asFragment? = some a) (bytes : Bytes) :
    (r.accept packet).whole = some bytes ↔
      a.header.position = .single ∧ bytes = a.piece ∨
      a.header.position = .last ∧ ∃ p, r.current = some p ∧ p.Takes a ∧
        bytes = p.bytes ++ a.piece := by
  rw [accept_of_fragment r h]
  by_cases htakes : ∃ p, r.current = some p ∧ p.Takes a
  · obtain ⟨p, hp, htakes⟩ := htakes
    obtain ⟨current⟩ := r
    cases hp
    cases hposition : a.header.position <;>
      simp [extend_of_takes htakes, hposition, FragmentPosition.closes, htakes,
        eq_comm (a := bytes)]
  · obtain ⟨-, hwhole⟩ := extend_of_not_takes fun p hp ht => htakes ⟨p, hp, ht⟩
    have hnone : ∀ p, r.current = some p → p.Takes a → False := fun p hp ht => htakes ⟨p, hp, ht⟩
    cases hposition : a.header.position <;> simp [hwhole, eq_comm (a := bytes)]
    exact fun p hp ht => (hnone p hp ht).elim

end Reassembler

/-! ## Series that are begun -/

namespace Series

open Reassembler (following)

/-- The fragments open a packet and go on with it, and this is what is collected with them. -/
inductive Begun : List Fragment → PartialPacket → Prop where
  | first {a : Fragment} (hposition : a.header.position = .first) : Begun [a] (.opened a)
  | middle {front : List Fragment} {p : PartialPacket} {a : Fragment} (hfront : Begun front p)
      (hposition : a.header.position = .middle) (htakes : p.Takes a) :
      Begun (front ++ [a]) (p.extended a)

variable {front : List Fragment} {p : PartialPacket} {a : Fragment}

theorem following_eq_iff {m n : UInt16} :
    following m = n ↔ n.toNat = (m.toNat + 1) % FragmentHeader.seqnoModulus := by
  have hlt : (m.toNat + 1) % FragmentHeader.seqnoModulus < 2 ^ 16 :=
    Nat.lt_trans (Nat.mod_lt _ (by decide)) (by decide)
  rw [following, ← UInt16.toNat_inj, UInt16.toNat_ofNat', Nat.mod_eq_of_lt hlt, eq_comm]

theorem Begun.bytes_eq (h : Begun front p) : p.bytes = whole front := by
  induction h with
  | first => simp [PartialPacket.opened, whole]
  | middle _ _ _ ih => rw [whole_concat, ← ih, PartialPacket.extended]

theorem Begun.positions_eq (h : Begun front p) :
    ∃ middles, positions front = .first :: List.replicate middles .middle := by
  induction h with
  | first hposition => exact ⟨0, congrArg (· :: []) hposition⟩
  | middle _ hposition _ ih =>
    obtain ⟨middles, hmiddles⟩ := ih
    refine ⟨middles + 1, ?_⟩
    rw [positions_concat, hmiddles, hposition, List.replicate_succ', List.cons_append]

theorem not_begun_nil : ¬Begun [] p := by
  intro h
  obtain ⟨middles, hmiddles⟩ := h.positions_eq
  cases hmiddles

theorem begun_concat_iff : Begun (front ++ [a]) p ↔
    a.header.position = .first ∧ front = [] ∧ p = .opened a ∨
    a.header.position = .middle ∧ ∃ q, Begun front q ∧ q.Takes a ∧ p = q.extended a := by
  constructor
  · intro h
    generalize hwhole : front ++ [a] = fragments at h
    cases h with
    | first hposition =>
      obtain ⟨rfl, hlast⟩ := List.append_inj' (hwhole.trans (List.nil_append _).symm) rfl
      obtain rfl := List.head_eq_of_cons_eq hlast
      exact .inl ⟨hposition, rfl, rfl⟩
    | middle hfront hposition htakes =>
      obtain ⟨rfl, hlast⟩ := List.append_inj' hwhole rfl
      obtain rfl := List.head_eq_of_cons_eq hlast
      exact .inr ⟨hposition, _, hfront, htakes, rfl⟩
  · rintro (⟨hposition, rfl, rfl⟩ | ⟨hposition, q, hfront, htakes, rfl⟩)
    · exact .first hposition
    · exact hfront.middle hposition htakes

/-- What is collected goes on behind the last of the fragments. -/
theorem Begun.getLast? (h : Begun front p) : ∃ z, front.getLast? = some z ∧
    p.suite = z.suite ∧ p.expected = following z.header.seqno := by
  cases h with
  | first => exact ⟨_, rfl, rfl, rfl⟩
  | middle => exact ⟨_, List.getLast?_concat, rfl, rfl⟩

/-- The fragment that comes next is the one next after the last, if there is room for it. -/
theorem Begun.takes_iff (h : Begun front p) : p.Takes a ↔
    (∀ z ∈ front.getLast?, z.Precedes a) ∧ (whole (front ++ [a])).length ≤ maxPacketSize := by
  obtain ⟨z, hz, hsuite, hexpected⟩ := h.getLast?
  have hlength : (whole (front ++ [a])).length = p.bytes.length + a.piece.length := by
    rw [whole_concat, List.length_append, h.bytes_eq]
  rw [hz, hlength]
  constructor
  · intro htakes
    refine ⟨?_, htakes.room⟩
    rintro _ ⟨⟩
    exact ⟨(hsuite.symm.trans htakes.suite).symm,
      following_eq_iff.1 (hexpected.symm.trans htakes.seqno)⟩
  · rintro ⟨hprecedes, hroom⟩
    obtain ⟨hsame, hnext⟩ := hprecedes z rfl
    exact ⟨hexpected.trans (following_eq_iff.2 hnext), hsuite.trans hsame.symm, hroom⟩

theorem isChain_concat_iff : (front ++ [a]).IsChain Fragment.Precedes ↔
    front.IsChain Fragment.Precedes ∧ ∀ z ∈ front.getLast?, z.Precedes a := by
  rw [List.isChain_append]
  simp

theorem Begun.inSequence (h : Begun front p) : front.IsChain Fragment.Precedes := by
  induction h with
  | first => exact List.isChain_singleton _
  | middle hfront _ htakes ih => exact isChain_concat_iff.2 ⟨ih, (hfront.takes_iff.1 htakes).1⟩

theorem length_whole_le_concat : (whole front).length ≤ (whole (front ++ [a])).length := by
  rw [whole_concat, List.length_append]
  exact Nat.le_add_right _ _

/-- A first fragment and middle ones in sequence have begun a packet, if it is not too long. -/
theorem exists_begun {middles : Nat} : ∀ {front : List Fragment},
    positions front = .first :: List.replicate middles .middle →
    front.IsChain Fragment.Precedes → (whole front).length ≤ maxPacketSize →
      ∃ p, Begun front p := by
  induction middles with
  | zero =>
    intro front hpositions _ _
    obtain ⟨a, rest, rfl, hposition, hrest⟩ := List.map_eq_cons_iff.1 hpositions
    obtain rfl := List.map_eq_nil_iff.1 hrest
    exact ⟨_, .first hposition⟩
  | succ middles ih =>
    intro front hpositions hchain hroom
    rw [List.replicate_succ', ← List.cons_append] at hpositions
    obtain ⟨before, a, rfl, hbefore, hposition⟩ := positions_eq_concat_iff.1 hpositions
    obtain ⟨hchain, hprecedes⟩ := isChain_concat_iff.1 hchain
    obtain ⟨p, hp⟩ := ih hbefore hchain (length_whole_le_concat.trans hroom)
    exact ⟨_, hp.middle hposition (hp.takes_iff.2 ⟨hprecedes, hroom⟩)⟩

/-- A series is complete with the last fragment of a packet that was begun. -/
theorem complete_concat_iff (hroom : (whole (front ++ [a])).length ≤ maxPacketSize) :
    Complete (front ++ [a]) ↔ a.header.position = .last ∧ ∃ p, Begun front p ∧ p.Takes a := by
  constructor
  · rintro ⟨⟨middles, hpositions⟩, hchain⟩
    rw [positions_concat, ← List.cons_append] at hpositions
    obtain ⟨hfront, hlast⟩ := List.append_inj' hpositions rfl
    obtain ⟨hchain, hprecedes⟩ := isChain_concat_iff.1 hchain
    obtain ⟨p, hp⟩ := exists_begun hfront hchain (length_whole_le_concat.trans hroom)
    exact ⟨List.head_eq_of_cons_eq hlast, p, hp, hp.takes_iff.2 ⟨hprecedes, hroom⟩⟩
  · rintro ⟨hlast, p, hp, htakes⟩
    obtain ⟨middles, hmiddles⟩ := hp.positions_eq
    refine ⟨⟨middles, ?_⟩, isChain_concat_iff.2 ⟨hp.inSequence, (hp.takes_iff.1 htakes).1⟩⟩
    rw [positions_concat, hmiddles, hlast, List.cons_append]

end Series

/-! ## Any history -/

/-- The fragments among packets, in order. -/
def fragmentsOf (packets : List Packet) : List Fragment := packets.filterMap Packet.asFragment?

theorem fragmentsOf_concat_none {packets : List Packet} {packet : Packet}
    (h : packet.asFragment? = none) : fragmentsOf (packets ++ [packet]) = fragmentsOf packets := by
  simp [fragmentsOf, h]

theorem fragmentsOf_concat_some {packets : List Packet} {packet : Packet} {a : Fragment}
    (h : packet.asFragment? = some a) :
    fragmentsOf (packets ++ [packet]) = fragmentsOf packets ++ [a] := by
  simp [fragmentsOf, h]

namespace Reassembler

/-- The reassembler behind packets that were fed to it. -/
def after (r : Reassembler) (packets : List Packet) : Reassembler :=
  packets.foldl (fun r packet => (r.accept packet).next) r

theorem after_concat (r : Reassembler) (packets : List Packet) (packet : Packet) :
    r.after (packets ++ [packet]) = ((r.after packets).accept packet).next := List.foldl_concat ..

/-- What a reassembler has collected is what the most recent fragments of its history have begun. -/
theorem current_after_iff (packets : List Packet) : ∀ p : PartialPacket,
    (idle.after packets).current = some p ↔
      ∃ front, front <:+ fragmentsOf packets ∧ Series.Begun front p := by
  induction packets using List.reverseRecOn with
  | nil =>
    intro p
    constructor
    · rintro ⟨⟩
    · rintro ⟨front, hsuffix, hbegun⟩
      obtain rfl := List.suffix_nil.1 hsuffix
      exact (Series.not_begun_nil hbegun).elim
  | append_singleton packets packet ih =>
    intro q
    rw [after_concat]
    cases hfragment : packet.asFragment? with
    | none => rw [accept_of_message _ hfragment, fragmentsOf_concat_none hfragment, ih]
    | some a =>
      rw [current_accept_iff _ hfragment, fragmentsOf_concat_some hfragment]
      constructor
      · rintro (⟨hposition, rfl⟩ | ⟨hposition, p, hp, htakes, rfl⟩)
        · exact ⟨[a], List.suffix_append _ _, .first hposition⟩
        · obtain ⟨front, hsuffix, hbegun⟩ := (ih p).1 hp
          exact ⟨front ++ [a], List.suffix_append_self_iff.2 hsuffix,
            hbegun.middle hposition htakes⟩
      · rintro ⟨_, hsuffix, hbegun⟩
        obtain rfl | ⟨front, rfl, hrecent⟩ := List.suffix_concat_iff.1 hsuffix
        · exact (Series.not_begun_nil hbegun).elim
        · refine (Series.begun_concat_iff.1 hbegun).imp (fun h => ⟨h.1, h.2.2⟩) ?_
          rintro ⟨hposition, p, hfront, htakes⟩
          exact ⟨hposition, p, (ih p).2 ⟨front, hrecent, hfront⟩, htakes⟩

/-- A reassembler is idle behind a packet that it hands over. -/
theorem next_accept_of_whole (r : Reassembler) (packet : Packet)
    (h : (r.accept packet).whole.isSome) : (r.accept packet).next = idle := by
  obtain ⟨bytes, hbytes⟩ := Option.isSome_iff_exists.1 h
  cases hfragment : packet.asFragment? with
  | none =>
    rw [accept_of_message r hfragment] at hbytes
    cases hbytes
  | some a =>
    cases hcurrent : (r.accept packet).next.current with
    | none => exact congrArg Reassembler.mk hcurrent
    | some q =>
      rcases (whole_accept_iff r hfragment bytes).1 hbytes with ⟨hposition, -⟩ | ⟨hposition, -⟩ <;>
        simpa [hposition] using (current_accept_iff r hfragment q).1 hcurrent

/-- Whatever packets a fresh reassembler was fed, it hands over the bytes of a single fragment, or
    those of a whole series that came as the most recent fragments, and is idle then. -/
theorem whole_accept_after_iff (packets : List Packet) (packet : Packet) :
    (∀ bytes, ((idle.after packets).accept packet).whole = some bytes ↔
      ∃ a, packet.asFragment? = some a ∧
        (a.header.position = .single ∧ bytes = a.piece ∨
          ∃ series, series <:+ fragmentsOf packets ++ [a] ∧ Series.Complete series ∧
            bytes = Series.whole series ∧ bytes.length ≤ maxPacketSize)) ∧
      (((idle.after packets).accept packet).whole.isSome →
        ((idle.after packets).accept packet).next = idle) := by
  refine ⟨fun bytes => ?_, next_accept_of_whole _ _⟩
  cases hfragment : packet.asFragment? with
  | none => simp [accept_of_message _ hfragment]
  | some a =>
    have hlast : (a.header.position = .last ∧ ∃ p, (idle.after packets).current = some p ∧
        p.Takes a ∧ bytes = p.bytes ++ a.piece) ↔
        ∃ series, series <:+ fragmentsOf packets ++ [a] ∧ Series.Complete series ∧
          bytes = Series.whole series ∧ bytes.length ≤ maxPacketSize := by
      constructor
      · rintro ⟨hposition, p, hp, htakes, rfl⟩
        obtain ⟨front, hsuffix, hbegun⟩ := (current_after_iff packets p).1 hp
        have hwhole : p.bytes ++ a.piece = Series.whole (front ++ [a]) := by
          rw [Series.whole_concat, hbegun.bytes_eq]
        have hroom := (hbegun.takes_iff.1 htakes).2
        exact ⟨front ++ [a], List.suffix_append_self_iff.2 hsuffix,
          (Series.complete_concat_iff hroom).2 ⟨hposition, p, hbegun, htakes⟩, hwhole,
          hwhole ▸ hroom⟩
      · rintro ⟨series, hsuffix, hcomplete, rfl, hroom⟩
        obtain rfl | ⟨front, rfl, hrecent⟩ := List.suffix_concat_iff.1 hsuffix
        · exact absurd hcomplete.positions (by simp [Series.positions])
        · obtain ⟨hposition, p, hbegun, htakes⟩ :=
            (Series.complete_concat_iff hroom).1 hcomplete
          refine ⟨hposition, p, (current_after_iff packets p).2 ⟨front, hrecent, hbegun⟩,
            htakes, ?_⟩
          rw [Series.whole_concat, hbegun.bytes_eq]
    rw [whole_accept_iff _ hfragment, hlast]
    simp

/-! ## A series in order -/

/-- What a reassembler hands over for each of the packets that are fed to it. -/
def wholes : Reassembler → List Packet → List (Option Bytes)
  | _, [] => []
  | r, packet :: rest => (r.accept packet).whole :: wholes (r.accept packet).next rest

theorem wholes_concat (packets : List Packet) (packet : Packet) : ∀ r : Reassembler,
    r.wholes (packets ++ [packet]) =
      r.wholes packets ++ [((r.after packets).accept packet).whole] := by
  induction packets with
  | nil => exact fun r => rfl
  | cons first rest ih => exact fun r => congrArg (_ :: ·) (ih _)

theorem exists_concat_of_fragments {packets : List Packet} {front : List Fragment} {a : Fragment}
    (h : packets.map Packet.asFragment? = (front ++ [a]).map some) :
    ∃ before packet, packets = before ++ [packet] ∧
      before.map Packet.asFragment? = front.map some ∧ packet.asFragment? = some a := by
  rw [List.map_append] at h
  obtain ⟨before, one, rfl, hbefore, hone⟩ := List.map_eq_append_iff.1 h
  obtain ⟨packet, rfl, hfragment⟩ := List.map_eq_singleton_iff.1 hone
  exact ⟨before, packet, rfl, hbefore, hfragment⟩

/-- A fragment that opens its packet or goes on with it completes nothing. -/
theorem whole_accept_of_open (r : Reassembler) {packet : Packet} {a : Fragment}
    (h : packet.asFragment? = some a) (hopen : a.header.position.closes = false) :
    (r.accept packet).whole = none := by
  rw [Option.eq_none_iff_forall_ne_some]
  intro bytes hbytes
  rcases (whole_accept_iff r h bytes).1 hbytes with ⟨hposition, -⟩ | ⟨hposition, -⟩ <;>
    cases (congrArg FragmentPosition.closes hposition).symm.trans hopen

/-- The fragments of one packet up to its last leave nothing but what they have begun, whatever was
    collected before them. -/
theorem after_opening {middles : Nat} (r : Reassembler) :
    ∀ {packets : List Packet} {front : List Fragment},
      packets.map Packet.asFragment? = front.map some →
      Series.positions front = .first :: List.replicate middles .middle →
        r.wholes packets = List.replicate (middles + 1) none ∧
          ∀ p, (r.after packets).current = some p ↔ Series.Begun front p := by
  induction middles with
  | zero =>
    intro packets front hpackets hpositions
    obtain ⟨a, rest, rfl, hposition, hrest⟩ := List.map_eq_cons_iff.1 hpositions
    obtain rfl := List.map_eq_nil_iff.1 hrest
    obtain ⟨packet, rfl, hfragment⟩ := List.map_eq_singleton_iff.1 hpackets
    refine ⟨congrArg (· :: []) (whole_accept_of_open r hfragment (hposition ▸ rfl)), fun p => ?_⟩
    have hbegun : Series.Begun ([] ++ [a]) p ↔ _ := Series.begun_concat_iff
    refine (current_accept_iff r hfragment p).trans ?_
    rw [List.nil_append] at hbegun
    rw [hbegun]
    simp [hposition]
  | succ middles ih =>
    intro packets front hpackets hpositions
    rw [List.replicate_succ', ← List.cons_append] at hpositions
    obtain ⟨before, a, rfl, hbefore, hposition⟩ := Series.positions_eq_concat_iff.1 hpositions
    obtain ⟨packets, packet, rfl, hpackets, hfragment⟩ := exists_concat_of_fragments hpackets
    obtain ⟨hwholes, hbegun⟩ := ih hpackets hbefore
    constructor
    · rw [wholes_concat, hwholes, whole_accept_of_open _ hfragment (hposition ▸ rfl)]
      exact List.replicate_succ'.symm
    · intro p
      rw [after_concat, current_accept_iff _ hfragment, Series.begun_concat_iff]
      simp [hposition, hbegun]

/-- A series is handed over with its last fragment, if it is not too long, whatever was collected
    before it. -/
theorem after_complete {packets : List Packet} {series : List Fragment}
    (hpackets : packets.map Packet.asFragment? = series.map some)
    (hseries : Series.Complete series) (r : Reassembler) :
    r.wholes packets = List.replicate (packets.length - 1) none ++
        [if (Series.whole series).length ≤ maxPacketSize then some (Series.whole series)
          else none] ∧
      r.after packets = idle := by
  obtain ⟨middles, hpositions⟩ := hseries.positions
  rw [← List.cons_append] at hpositions
  obtain ⟨front, a, rfl, hfront, hposition⟩ := Series.positions_eq_concat_iff.1 hpositions
  obtain ⟨packets, packet, rfl, hpackets, hfragment⟩ := exists_concat_of_fragments hpackets
  obtain ⟨hwholes, hbegun⟩ := after_opening r hpackets hfront
  have hcount : (packets ++ [packet]).length - 1 = middles + 1 := by
    have hlength := congrArg List.length hfront
    have hsame := congrArg List.length hpackets
    simp only [Series.length_positions, List.length_map, List.length_cons,
      List.length_replicate] at hlength hsame
    rw [List.length_append, List.length_singleton, hsame, hlength, Nat.add_sub_cancel]
  constructor
  · rw [wholes_concat, hwholes, hcount]
    congr 2
    split
    · rename_i hroom
      obtain ⟨-, p, hp, htakes⟩ := (Series.complete_concat_iff hroom).1 hseries
      refine (whole_accept_iff _ hfragment _).2
        (.inr ⟨hposition, p, (hbegun p).2 hp, htakes, ?_⟩)
      rw [Series.whole_concat, hp.bytes_eq]
    · rename_i hlong
      rw [Option.eq_none_iff_forall_ne_some]
      intro bytes hbytes
      rcases (whole_accept_iff _ hfragment bytes).1 hbytes with
        ⟨hsingle, -⟩ | ⟨-, p, hp, htakes, -⟩
      · cases hposition.symm.trans hsingle
      · exact hlong (((hbegun p).1 hp).takes_iff.1 htakes).2
  · rw [after_concat]
    cases hcurrent : (((r.after packets).accept packet).next).current with
    | none => exact congrArg Reassembler.mk hcurrent
    | some q => simpa [hposition] using (current_accept_iff _ hfragment q).1 hcurrent

end Reassembler

end NameRelay
