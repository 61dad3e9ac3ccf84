-- SUMMARY: Whatever happens to a content store, it keeps what is pinned, and keeps nothing twice.
import Mathlib.Logic.Relation
import NameRelay.Proofs.Table.Contents

/-!
# Pinned contents

Using the store, putting packets in, ageing it and changing its limit all leave what is pinned where
it is, and none of them puts the same bytes in twice. So a packet is pinned for good by the first
attempt to pin it that finds no copy stored that is not pinned. An attempt that finds one changes
nothing.
-/

namespace NameRelay

namespace Packet

variable {p q r : Packet}

theorem sameBytes_iff : p.sameBytes q = true ↔ p.suite = q.suite ∧ p.bytes = q.bytes := by
  simp [sameBytes]

theorem sameBytes_symm (h : p.sameBytes q = true) : q.sameBytes p = true := by
  obtain ⟨hsuite, hbytes⟩ := sameBytes_iff.1 h
  exact sameBytes_iff.2 ⟨hsuite.symm, hbytes.symm⟩

theorem sameBytes_trans (h : p.sameBytes q = true) (h' : q.sameBytes r = true) :
    p.sameBytes r = true := by
  obtain ⟨hsuite, hbytes⟩ := sameBytes_iff.1 h
  obtain ⟨hsuite', hbytes'⟩ := sameBytes_iff.1 h'
  exact sameBytes_iff.2 ⟨hsuite.trans hsuite', hbytes.trans hbytes'⟩

end Packet

namespace ContentStore

/-! ## Copies of a packet -/

/-- No two entries have the same bytes. -/
def Distinct (s : ContentStore) : Prop :=
  ∀ k e k' e', s.get? k = some e → s.get? k' = some e' → e.packet.sameBytes e'.packet = true → k = k'

/-- The packet is stored under the key, and it is pinned. -/
def PinnedAt (s : ContentStore) (key : ContentKey) (packet : Packet) : Prop :=
  ∃ e, s.get? key = some e ∧ e.packet = packet ∧ e.flags.pinned = true

/-- A packet with these bytes is stored and pinned. -/
def Pins (s : ContentStore) (packet : Packet) : Prop :=
  ∃ key stored, s.PinnedAt key stored ∧ stored.sameBytes packet = true

/-- A packet with these bytes is stored, but it is not pinned. -/
def HoldsLoose (s : ContentStore) (packet : Packet) : Prop :=
  ∃ key e, s.get? key = some e ∧ e.packet.sameBytes packet = true ∧ e.flags.pinned = false

variable {s t : ContentStore}

/-- Of a packet that is pinned there is no copy that is not. -/
theorem Pins.not_holdsLoose {packet : Packet} (hd : s.Distinct) (h : s.Pins packet) :
    ¬s.HoldsLoose packet := by
  rintro ⟨k, e, he, hsame, hloose⟩
  obtain ⟨k', _, ⟨e', he', rfl, hpinned⟩, hsame'⟩ := h
  cases hd k e k' e' he he' (Packet.sameBytes_trans hsame (Packet.sameBytes_symm hsame'))
  cases he.symm.trans he'
  cases hloose.symm.trans hpinned

/-! ## What happens to a store -/

/-- One thing that happens to a store, unless contents are removed by their name. -/
inductive Change : ContentStore → ContentStore → Prop where
  | touch (s : ContentStore) (key : ContentKey) (now : Instant) : Change s (s.touch key now)
  | insert (s : ContentStore) (packet : Packet) (flags : ContentFlags) (now : Instant) :
      Change s (s.insert packet flags now).2
  | setLimit (s : ContentStore) (limit : Int) : Change s { s with limit }
  /-- Entries go that are not pinned. -/
  | expire (s : ContentStore) {expired : StoredContent → Bool}
      (h : ∀ e, e.flags.pinned = true → expired e = false) : Change s (s.expire expired).2
  /-- Something about the entries is noted that has to do neither with packets nor with pinning. -/
  | mark (s : ContentStore) {mark : StoredContent → StoredContent}
      (h : ∀ e, (mark e).packet = e.packet ∧ (mark e).flags.pinned = e.flags.pinned) :
      Change s { s with slots := s.slots.mapEntries mark }

/-- Changes lead from one store to another. -/
abbrev Changes : ContentStore → ContentStore → Prop := Relation.ReflTransGen Change

theorem Change.wellFormed (h : Change s t) (hs : s.slots.WellFormed) : t.slots.WellFormed := by
  cases h with
  | touch key now => exact Slots.wellFormed_modify hs key _
  | insert packet flags now => exact wellFormed_insert hs packet flags now
  | setLimit => exact hs
  | expire => exact Slots.wellFormed_removeWhere hs _
  | mark => exact Slots.wellFormed_mapEntries hs _

/-! ### What is pinned stays -/

theorem PinnedAt.change {key : ContentKey} {packet : Packet} (h : s.PinnedAt key packet)
    (hs : s.slots.WellFormed) (hc : Change s t) : t.PinnedAt key packet := by
  obtain ⟨e, he, rfl, hpinned⟩ := h
  cases hc with
  | touch k now =>
    have hget := Slots.get?_modify s.slots k
      (fun e => { e with lastUsed := now, served := min (e.served + 1) maxServed }) key
    by_cases hk : key = k
    · rw [if_pos hk] at hget
      exact ⟨_, hget.trans (congrArg _ he), rfl, hpinned⟩
    · exact ⟨e, (hget.trans (if_neg hk)).trans he, rfl, hpinned⟩
  | insert p flags now =>
    by_cases htakes : s.Takes p flags
    · obtain ⟨u, _, _, hspares, hkept, heq⟩ := insert_of_takes htakes now
      rw [heq]
      have hu := hkept key e he hpinned
      exact ⟨e, Slots.get?_insert_of_get? (hspares.wellFormed hs) _ hu, rfl, hpinned⟩
    · rw [insert_of_not_takes htakes]
      exact ⟨e, he, rfl, hpinned⟩
  | setLimit => exact ⟨e, he, rfl, hpinned⟩
  | expire hexpired =>
    refine ⟨e, (Slots.get?_removeWhere s.slots _ key).trans ?_, rfl, hpinned⟩
    have hget : s.slots.get? key = some e := he
    rw [hget]
    simp [Option.filter, hexpired e hpinned]
  | mark hmark =>
    obtain ⟨hpacket, hflag⟩ := hmark e
    exact ⟨_, (Slots.get?_mapEntries s.slots _ key).trans (congrArg _ he), hpacket,
      hflag.trans hpinned⟩

theorem PinnedAt.changes {key : ContentKey} {packet : Packet} (h : s.PinnedAt key packet)
    (hs : s.slots.WellFormed) (hc : Changes s t) :
    t.slots.WellFormed ∧ t.PinnedAt key packet := by
  induction hc with
  | refl => exact ⟨hs, h⟩
  | tail _ hstep ih => exact ⟨hstep.wellFormed ih.1, ih.2.change ih.1 hstep⟩

/-- Only the contents of the name go when a name is removed. -/
theorem PinnedAt.removeNamed {key : ContentKey} {packet : Packet} (h : s.PinnedAt key packet)
    {name : Name} (hname : packet.name?.any (·.same name) = false) :
    (s.removeNamed name).2.PinnedAt key packet := by
  obtain ⟨e, he, rfl, hpinned⟩ := h
  refine ⟨e, (Slots.get?_removeWhere s.slots (isNamed name) key).trans ?_, rfl, hpinned⟩
  have hget : s.slots.get? key = some e := he
  rw [hget]
  simp [Option.filter, isNamed, hname]

/-! ### Nothing is stored twice -/

/-- Entries may go and change in all but their packets. -/
theorem Distinct.mono (h : s.Distinct)
    (ht : ∀ key e, t.get? key = some e → ∃ old, s.get? key = some old ∧ e.packet = old.packet) :
    t.Distinct := by
  intro k e k' e' he he' hsame
  obtain ⟨old, hold, hpacket⟩ := ht k e he
  obtain ⟨old', hold', hpacket'⟩ := ht k' e' he'
  rw [hpacket, hpacket'] at hsame
  exact h k old k' old' hold hold' hsame

/-- A packet may be added of which there is no copy. -/
theorem Distinct.add (h : s.Distinct) (hs : s.slots.WellFormed) {packet : Packet}
    (hnew : ∀ key e, s.get? key = some e → e.packet.sameBytes packet = false) (flags : ContentFlags)
    (now : Instant) : (s.add packet flags now).2.Distinct := by
  let entry : StoredContent := ⟨packet, flags, now, now, 0⟩
  have hcases : ∀ k e, (s.add packet flags now).2.get? k = some e →
      k = (s.slots.insert entry).1 ∧ e = entry ∨ s.get? k = some e := by
    intro k e he
    by_cases hk : k = (s.slots.insert entry).1
    · subst hk
      exact .inl ⟨rfl, Option.some.inj (he.symm.trans (Slots.get?_insert_self hs entry))⟩
    · exact .inr ((Slots.get?_insert_of_ne hs entry hk).symm.trans he)
  intro k e k' e' he he' hsame
  rcases hcases k e he with ⟨hk, rfl⟩ | hold
  · rcases hcases k' e' he' with ⟨hk', -⟩ | hold'
    · exact hk.trans hk'.symm
    · cases (hnew k' e' hold').symm.trans (Packet.sameBytes_symm hsame)
  · rcases hcases k' e' he' with ⟨-, rfl⟩ | hold'
    · cases (hnew k e hold).symm.trans hsame
    · exact h k e k' e' hold hold' hsame

theorem Distinct.change (h : s.Distinct) (hs : s.slots.WellFormed) (hc : Change s t) :
    t.Distinct := by
  cases hc with
  | touch k now =>
    refine h.mono fun key e he => ?_
    obtain ⟨old, hold, rfl | ⟨-, rfl⟩⟩ := Slots.get?_of_get?_modify he <;> exact ⟨_, hold, rfl⟩
  | insert packet flags now =>
    by_cases htakes : s.Takes packet flags
    · obtain ⟨u, _, _, hspares, -, heq⟩ := insert_of_takes htakes now
      rw [heq]
      have hu : u.Distinct := h.mono fun key e he => ⟨e, hspares.get? he, rfl⟩
      refine hu.add (hspares.wellFormed hs) (fun key e he => ?_) flags now
      exact Slots.find?_eq_none_iff.1 htakes.new key e (hspares.get? he)
    · rw [insert_of_not_takes htakes]
      exact h
  | setLimit => exact h
  | expire =>
    refine h.mono fun key e he => ?_
    have hget := (Slots.get?_removeWhere s.slots _ key).symm.trans he
    exact ⟨e, (Option.filter_eq_some_iff.1 hget).1, rfl⟩
  | mark hmark =>
    refine h.mono fun key e he => ?_
    have hget := (Slots.get?_mapEntries s.slots _ key).symm.trans he
    obtain ⟨old, hold, rfl⟩ := Option.map_eq_some_iff.1 hget
    exact ⟨old, hold, (hmark old).1⟩

theorem Distinct.changes (h : s.Distinct) (hs : s.slots.WellFormed) (hc : Changes s t) :
    t.slots.WellFormed ∧ t.Distinct := by
  induction hc with
  | refl => exact ⟨hs, h⟩
  | tail _ hstep ih => exact ⟨hstep.wellFormed ih.1, ih.2.change ih.1 hstep⟩

theorem Distinct.removeNamed (h : s.Distinct) (name : Name) : (s.removeNamed name).2.Distinct := by
  refine h.mono fun key e he => ?_
  have hget := (Slots.get?_removeWhere s.slots (isNamed name) key).symm.trans he
  exact ⟨e, (Option.filter_eq_some_iff.1 hget).1, rfl⟩

/-! ## Pinning -/

/-- An attempt to pin a packet that finds room pins it, unless a copy is stored that is not pinned.
    No other packet comes to be pinned. -/
theorem pins_insert_iff (hs : s.slots.WellFormed) {packet : Packet} {now : Instant}
    (hroom : (s.insert packet { pinned := true } now).1 ≠ .full) (q : Packet) :
    (s.insert packet { pinned := true } now).2.Pins q ↔
      s.Pins q ∨ packet.sameBytes q = true ∧ ¬s.HoldsLoose q := by
  by_cases htakes : s.Takes packet { pinned := true }
  · have hstep := Change.insert s packet { pinned := true } now
    obtain ⟨u, _, _, hspares, -, heq⟩ := insert_of_takes htakes now
    rw [heq] at hstep ⊢
    constructor
    · rintro ⟨key, _, ⟨e, he, rfl, hpinned⟩, hsame⟩
      rcases Slots.get?_of_get?_insert he with rfl | hold
      · refine .inr ⟨hsame, ?_⟩
        rintro ⟨k, e, he, hcopy, -⟩
        have hother := Slots.find?_eq_none_iff.1 htakes.new k e he
        cases hother.symm.trans (Packet.sameBytes_trans hcopy (Packet.sameBytes_symm hsame))
      · exact .inl ⟨key, e.packet, ⟨e, hspares.get? hold, rfl, hpinned⟩, hsame⟩
    · rintro (⟨key, stored, hat, hsame⟩ | ⟨hsame, -⟩)
      · exact ⟨key, stored, hat.change hs hstep, hsame⟩
      · exact ⟨_, packet, ⟨_, Slots.get?_insert_self (hspares.wellFormed hs) _, rfl, rfl⟩, hsame⟩
  · rcases insert_cases_of_not_takes htakes now with ⟨heq, hwhy⟩ | ⟨heq, -⟩
    · rw [heq]
      refine ⟨.inl, ?_⟩
      rintro (hpins | ⟨hsame, hloose⟩)
      · exact hpins
      · obtain ⟨key, hfound⟩ := Option.ne_none_iff_exists'.1 (hwhy.resolve_right (by simp))
        obtain ⟨e, he, hcopy⟩ := Slots.get?_of_find? hfound
        have hboth := Packet.sameBytes_trans hcopy hsame
        refine ⟨key, e.packet, ⟨e, he, rfl, ?_⟩, hboth⟩
        rw [← Bool.not_eq_false]
        exact fun hfree => hloose ⟨key, e, he, hboth, hfree⟩
    · rw [heq] at hroom
      exact (hroom rfl).elim

/-- Pinning a packet leaves a trace, unless it is stored already: no changes undo it. -/
theorem duplicate_of_changes (hs : s.slots.WellFormed) {packet : Packet} {now : Instant}
    (hroom : (s.insert packet { pinned := true } now).1 ≠ .full)
    (h : Changes (s.insert packet { pinned := true } now).2 s) :
    s.duplicate? packet ≠ none ∧ (s.insert packet { pinned := true } now).2 = s := by
  by_cases htakes : s.Takes packet { pinned := true }
  · have hwellFormed := wellFormed_insert hs packet { pinned := true } now
    obtain ⟨u, _, _, hspares, -, heq⟩ := insert_of_takes htakes now
    rw [heq] at h hwellFormed
    have hpinned : (u.add packet { pinned := true } now).2.PinnedAt
        (u.add packet { pinned := true } now).1 packet :=
      ⟨_, Slots.get?_insert_self (hspares.wellFormed hs) _, rfl, rfl⟩
    obtain ⟨e, he, rfl, -⟩ := (hpinned.changes hwellFormed h).2
    have hother := Slots.find?_eq_none_iff.1 htakes.new _ e he
    cases hother.symm.trans (Packet.sameBytes_iff.2 ⟨rfl, rfl⟩)
  · rcases insert_cases_of_not_takes htakes now with ⟨heq, hwhy⟩ | ⟨heq, -⟩
    · rw [heq]
      exact ⟨hwhy.resolve_right (by simp), rfl⟩
    · rw [heq] at hroom
      exact (hroom rfl).elim

end ContentStore

end NameRelay
