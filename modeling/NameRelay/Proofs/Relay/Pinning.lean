-- SUMMARY: Which contents a publication pins, and that they stay.
import Mathlib.Data.List.Forall2
import NameRelay.Proofs.Format.RoundTrip
import NameRelay.Proofs.Relay.Sound
import NameRelay.Proofs.Relay.Storing

/-!
# What a publication pins

The own node publishes contents to have them pinned in the store, and what is pinned stays until its
name is removed. But a packet that is stored already is left as it is, pinned or not. So a chunk is
pinned by a publication only if, when its turn comes, no copy is stored that came from the network.
-/

namespace NameRelay

/-- What was made of each item, if something could be made of all. -/
theorem forall₂_of_mapM {ε α β : Type} {f : α → Except ε β} {items : List α} {made : List β}
    (h : items.mapM f = .ok made) : List.Forall₂ (fun a b => f a = .ok b) items made := by
  induction items generalizing made with
  | nil =>
    cases h
    exact .nil
  | cons a items ih =>
    rw [List.mapM_cons] at h
    cases hfirst : f a with
    | error e =>
      rw [hfirst] at h
      cases h
    | ok b =>
      cases hrest : items.mapM f with
      | error e =>
        rw [hfirst, hrest] at h
        cases h
      | ok bs =>
        rw [hfirst, hrest] at h
        cases h
        exact .cons hfirst (ih hrest)

theorem Publication.length_packets {p : Publication} {packets : List Packet}
    (h : p.packets = .ok packets) : packets.length = p.count := by
  unfold Publication.packets at h
  split at h
  · cases h
  · exact (forall₂_of_mapM h).length_eq.symm.trans List.length_range

namespace Relay

variable {r s : Relay}

/-! ## Runs -/

/-- No content is stored twice. -/
theorem Reachable.distinct (h : Reachable r) : r.contents.Distinct := by
  have hstart : ∀ host c, (withLimits host c).contents.Distinct := by
    intro host c k e _ _ he
    simp [withLimits, ContentStore.empty, ContentStore.get?] at he
  induction h with
  | fresh now digest grants => exact hstart (Host.fresh now digest grants) {}
  | configured now digest grants c hr =>
    have hchanges := configured_related (R := StoreChanges) (fun _ => .of_eq rfl) .trans
      .addInterface .setPacing .addFace .addRoute (Host.fresh now digest grants) c
    rw [hr] at hchanges
    exact ((hstart _ c).changes (sound_withLimits _ c).contents hchanges).2
  | @perform r hr c ih =>
    by_cases hc : ∃ name, c = .removeContent name
    · obtain ⟨name, rfl⟩ := hc
      exact ih.removeNamed name
    · have hchanges := StoreChanges.perform r fun name hname => hc ⟨name, hname⟩
      exact (ih.changes hr.visited.sound.contents hchanges).2

/-- What is pinned stays until a call removes its name. -/
theorem pinnedAt_performAll (h : Reachable r) {key : ContentKey} {packet : Packet}
    (hpinned : r.contents.PinnedAt key packet) {calls : List Call}
    (hcalls : ∀ name, .removeContent name ∈ calls → packet.name?.any (·.same name) = false) :
    (r.performAll calls).contents.PinnedAt key packet := by
  induction calls generalizing r with
  | nil => exact hpinned
  | cons c calls ih =>
    refine ih (h.perform c) ?_ fun name hname => hcalls name (List.mem_cons_of_mem c hname)
    by_cases hc : ∃ name, c = .removeContent name
    · obtain ⟨name, rfl⟩ := hc
      exact hpinned.removeNamed (hcalls name List.mem_cons_self)
    · have hchanges := StoreChanges.perform r fun name hname => hc ⟨name, hname⟩
      exact (hpinned.changes h.visited.sound.contents hchanges).2

/-! ## Publications -/

/-- While the packets are published, the turn comes of one with these bytes, and no copy of it is
    stored then that is not pinned. -/
def PinsInTurn (r : Relay) (packets : List Packet) (q : Packet) : Prop :=
  ∃ before packet after, packets = before ++ packet :: after ∧ packet.sameBytes q = true ∧
    ¬(r.publishPackets before).2.contents.HoldsLoose q

/-- It is the turn of the first packet at once, and then that of the others. -/
theorem pinsInTurn_cons {packet : Packet} {stored : Bool}
    (h : r.store packet { pinned := true } = (.ok stored, s)) (packets : List Packet) (q : Packet) :
    r.PinsInTurn (packet :: packets) q ↔
      packet.sameBytes q = true ∧ ¬r.contents.HoldsLoose q ∨
        (s.servePending packet).2.PinsInTurn packets q := by
  have hnext : ∀ before, (r.publishPackets (packet :: before)).2 =
      ((s.servePending packet).2.publishPackets before).2 := by
    intro before
    rw [publishPackets, h]
  constructor
  · rintro ⟨before, p, after, hsplit, hsame, hloose⟩
    cases before with
    | nil =>
      cases hsplit
      exact .inl ⟨hsame, hloose⟩
    | cons first before =>
      cases hsplit
      rw [hnext] at hloose
      exact .inr ⟨before, p, after, rfl, hsame, hloose⟩
  · rintro (⟨hsame, hloose⟩ | ⟨before, p, after, rfl, hsame, hloose⟩)
    · exact ⟨[], packet, packets, rfl, hsame, hloose⟩
    · refine ⟨packet :: before, p, after, rfl, hsame, ?_⟩
      rwa [hnext]

/-- A packet for which there is no room is not stored. -/
theorem room_of_store {packet : Packet} {flags : ContentFlags} {stored : Bool}
    (h : r.store packet flags = (.ok stored, s)) :
    (r.contents.insert packet flags r.now).1 ≠ .full := by
  intro hfull
  unfold store at h
  split at h
  rename_i outcome contents hinsert
  rw [hinsert] at hfull
  cases hfull
  cases h

/-- A publication stores the first packet and serves it, and then publishes the others. -/
theorem publishPackets_cons {packet : Packet} {packets : List Packet} {n : Nat}
    (h : r.publishPackets (packet :: packets) = (.ok n, s)) :
    ∃ stored t more, r.store packet { pinned := true } = (.ok stored, t) ∧
      (t.servePending packet).2.publishPackets packets = (.ok more, s) ∧
        n = stored.toNat + more := by
  unfold publishPackets at h
  split at h
  · cases h
  · rename_i stored t hstore
    dsimp only at h
    cases hrest : (t.servePending packet).2.publishPackets packets with
    | mk outcome u =>
      rw [hrest] at h
      cases outcome with
      | error e => cases h
      | ok more =>
        cases h
        exact ⟨stored, t, more, hstore, hrest, rfl⟩

/-- What the store holds once the first packet is stored and served. -/
theorem contents_stored {packet : Packet} {stored : Bool} {t : Relay}
    (h : r.store packet { pinned := true } = (.ok stored, t)) :
    (t.servePending packet).2.contents = (r.contents.insert packet { pinned := true } r.now).2 := by
  have hstored := contents_store r packet { pinned := true }
  rw [h] at hstored
  exact (contents_servePending t packet).trans hstored

/-- After packets were published, those are pinned that were before, and those that were published
    when no copy was stored that was not pinned. -/
theorem pins_publishPackets_iff {packets : List Packet} {n : Nat}
    (hr : r.contents.slots.WellFormed) (h : r.publishPackets packets = (.ok n, s)) (q : Packet) :
    s.contents.Pins q ↔ r.contents.Pins q ∨ r.PinsInTurn packets q := by
  induction packets generalizing r n with
  | nil =>
    cases h
    refine ⟨.inl, Or.rec id ?_⟩
    rintro ⟨before, _, _, hsplit, -⟩
    exact absurd hsplit.symm (by simp)
  | cons packet packets ih =>
    obtain ⟨stored, t, more, hstore, hrest, -⟩ := publishPackets_cons h
    have hwellFormed := ContentStore.wellFormed_insert hr packet { pinned := true } r.now
    rw [← contents_stored hstore] at hwellFormed
    have hfirst := ContentStore.pins_insert_iff hr (room_of_store hstore) q
    rw [ih hwellFormed hrest, contents_stored hstore, hfirst, pinsInTurn_cons hstore, or_assoc]

/-- What a publication pins. All its chunks are encoded before the first is stored. A chunk is pinned
    afterwards if and only if no copy that is not pinned was stored when its turn came: one that was
    cached from the network before is left as it is. What is pinned stays, whatever calls follow,
    until its name is removed. -/
theorem addContent_pins_iff {p : Publication} {n : Nat} (hr : Reachable r)
    (h : r.addContent p = (.ok n, s)) :
    ∃ packets, p.packets = .ok packets ∧ packets.length = p.count ∧ ∀ packet ∈ packets,
      (s.contents.Pins packet ↔ r.PinsInTurn packets packet) ∧
      ∀ key stored, s.contents.PinnedAt key stored → stored.sameBytes packet = true →
        ∀ calls, (∀ name, .removeContent name ∈ calls → stored.name?.any (·.same name) = false) →
          (s.performAll calls).contents.PinnedAt key stored := by
  have hreached : Reachable s := by
    have hs := hr.perform (.addContent p)
    rwa [perform, h] at hs
  have hwellFormed := hr.visited.sound.contents
  unfold addContent at h
  split at h
  · cases h
  · rename_i packets hpackets
    refine ⟨packets, hpackets, Publication.length_packets hpackets, fun packet hmem => ⟨?_, ?_⟩⟩
    · split at h
      · cases h
      · rename_i u hpublished
        cases h
        refine (pins_publishPackets_iff hwellFormed hpublished packet).trans ⟨?_, .inr⟩
        rintro (⟨key, stored, hat, hsame⟩ | hturn)
        · -- what was pinned all along still is when its turn comes
          obtain ⟨before, after, rfl⟩ := List.append_of_mem hmem
          have hchanges := StoreChanges.publishPackets r before
          have hpins : (r.publishPackets before).2.contents.Pins packet :=
            ⟨key, stored, (hat.changes hwellFormed hchanges).2, hsame⟩
          have hdistinct := (hr.distinct.changes hwellFormed hchanges).2
          exact ⟨before, packet, after, rfl, Packet.sameBytes_iff.2 ⟨rfl, rfl⟩,
            hpins.not_holdsLoose hdistinct⟩
        · exact hturn
    · intro key stored hat _ calls hcalls
      exact pinnedAt_performAll hreached hat hcalls

/-- A content `/a`, to be published. -/
def onePage : Publication where
  name := ⟨.ndn, [[97]], none, ⟨false, false⟩⟩
  firstChunk := none
  bytes := [112]
  chunkSize := 0
  count := 1

/-- The packet that it is published as. -/
def onePacket : Packet where
  bytes := [6, 17, 7, 3, 8, 1, 97, 20, 0, 21, 1, 112, 22, 3, 27, 1, 0, 23, 0]
  body := .message .content ⟨.ndn, [[97]], none, ⟨false, false⟩⟩ (some ⟨11, 12⟩)
  details := .ndn { minSuffix := 0, maxSuffix := 64 }

/-- A reader asked for `/a`, and a neighbour sent what the own node would have published. The
    interface is paced, so what is sent waits there. -/
def neighbourFirst : Relay :=
  (Relay.fresh (Host.fresh ⟨0⟩ (fun _ => none) fun _ => true)).performAll
    [.addInterface .application 0 {}, .setPacing 0 (some 1), .setCacheLimit 10,
      .receive 0 [5, 11, 7, 3, 8, 1, 97, 10, 4, 0, 0, 0, 1] (.path "reader"),
      .receive 0 onePacket.bytes (.path "neighbour")]

/-- The own node publishes it, and it is not pinned. -/
theorem onePage_not_pinned : ∃ s, neighbourFirst.addContent onePage = (.ok 0, s) ∧
    onePage.packets = .ok [onePacket] ∧ ¬s.contents.Pins onePacket := by
  have hreached : Reachable neighbourFirst := (Reachable.fresh _ _ _).performAll _
  have hpackets : onePage.packets = .ok [onePacket] := eq_ok_of_toOption (by decide +kernel)
  have hdone : (neighbourFirst.addContent onePage).1 = .ok 0 :=
    eq_ok_of_toOption (by decide +kernel)
  obtain ⟨s, hs⟩ : ∃ s, neighbourFirst.addContent onePage = (.ok 0, s) := ⟨_, by rw [← hdone]⟩
  obtain ⟨packets, hall, -, hpins⟩ := addContent_pins_iff hreached hs
  cases hall.symm.trans hpackets
  refine ⟨_, hs, hpackets, fun hpinned => ?_⟩
  obtain ⟨before, p, after, hsplit, -, hloose⟩ := (hpins onePacket (by simp)).1.1 hpinned
  obtain rfl : before = [] := by
    cases before with
    | nil => rfl
    | cons first before => cases before <;> simp at hsplit
  have hcached : (neighbourFirst.contents.get? ⟨0, 0⟩).any (fun e =>
      e.packet.sameBytes onePacket && !e.flags.pinned) = true := by decide +kernel
  obtain ⟨e, he, hcopy⟩ := Option.any_eq_true _ _ |>.1 hcached
  rw [Bool.and_eq_true, Bool.not_eq_true'] at hcopy
  exact hloose ⟨_, e, he, hcopy.1, hcopy.2⟩

end Relay

end NameRelay
