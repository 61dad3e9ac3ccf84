-- SUMMARY: What a publication leaves behind that fails.
import NameRelay.Proofs.Relay.Balance
import NameRelay.Proofs.Relay.Copies
import NameRelay.Proofs.Relay.Pinning

/-!
# Publications that fail

All chunks of a publication are encoded and read back before the first is stored, so a publication
that cannot be encoded leaves everything as it was. Whether there is room is only seen chunk by
chunk. A publication that finds none for a chunk has stored, pinned and served those in front of it,
and they stay.
-/

namespace NameRelay

namespace Relay

variable {r s t : Relay}

/-- Stored contents, pending interests and queues are the same in both states, and nothing went out
    in between. -/
structure Untouched (r s : Relay) : Prop where
  contents : s.contents = r.contents
  pending : s.pending = r.pending
  queues : s.queues = r.queues
  silent : r.sentSince s = []

theorem Untouched.refl (r : Relay) : Untouched r r where
  contents := rfl
  pending := rfl
  queues := rfl
  silent := by simp [sentSince]

/-- How a publication fails, and which packets were published before. -/
inductive FailsAfter (r : Relay) (p : Publication) : List Packet → RelayError → Relay → Prop where
  /-- A chunk cannot be encoded or read back. -/
  | unencodable {e : RelayError} (h : p.packets = .error e) : FailsAfter r p [] e r
  /-- There is no room for a packet. -/
  | full {published : List Packet} {packet : Packet} {rest : List Packet} {n : Nat} {t : Relay}
      (h : p.packets = .ok (published ++ packet :: rest))
      (hpublished : r.publishPackets published = (.ok n, t))
      (hroom : ∃ contents, t.contents.insert packet { pinned := true } t.now = (.full, contents)) :
      FailsAfter r p published .cacheFull
        (t.log .warn s!"Content store full, dropping {packet.label}")

/-! ## Where a publication fails -/

/-- Storing fails for want of room only, and tells of it. -/
theorem store_error {packet : Packet} {flags : ContentFlags} {e : RelayError}
    (h : r.store packet flags = (.error e, s)) :
    e = .cacheFull ∧ (∃ contents, r.contents.insert packet flags r.now = (.full, contents)) ∧
      s = r.log .warn s!"Content store full, dropping {packet.label}" := by
  unfold store at h
  cases hinsert : r.contents.insert packet flags r.now with
  | mk outcome contents =>
    rw [hinsert] at h
    cases outcome with
    | stored key evicted => cases h
    | unchanged => cases h
    | full =>
      cases ContentStore.insert_full hinsert
      cases h
      exact ⟨rfl, ⟨_, rfl⟩, rfl⟩

/-- A publication that stops at a packet has published those in front of it. -/
theorem publishPackets_error {packets : List Packet} {e : RelayError}
    (h : r.publishPackets packets = (.error e, s)) :
    ∃ published packet rest n t, packets = published ++ packet :: rest ∧
      r.publishPackets published = (.ok n, t) ∧ t.store packet { pinned := true } = (.error e, s) := by
  induction packets generalizing r with
  | nil => cases h
  | cons packet packets ih =>
    unfold publishPackets at h
    split at h
    · rename_i hstore
      cases h
      exact ⟨[], packet, packets, 0, r, rfl, rfl, hstore⟩
    · rename_i stored t hstore
      dsimp only at h
      cases hrest : (t.servePending packet).2.publishPackets packets with
      | mk outcome u =>
        rw [hrest] at h
        cases outcome with
        | ok more => cases h
        | error e =>
          cases h
          obtain ⟨published, p, rest, n, v, rfl, hpublished, hstop⟩ := ih hrest
          refine ⟨packet :: published, p, rest, stored.toNat + n, v, rfl, ?_, hstop⟩
          rw [publishPackets, hstore]
          dsimp only
          rw [hpublished]
          rfl

theorem failsAfter_of_error {p : Publication} {e : RelayError}
    (h : r.addContent p = (.error e, s)) : ∃ published, FailsAfter r p published e s := by
  unfold addContent at h
  split at h
  · rename_i hpackets
    cases h
    exact ⟨[], .unencodable hpackets⟩
  · rename_i packets hpackets
    split at h
    · rename_i hpublish
      cases h
      obtain ⟨published, packet, rest, n, t, rfl, hpublished, hstop⟩ :=
        publishPackets_error hpublish
      obtain ⟨rfl, hroom, rfl⟩ := store_error hstop
      exact ⟨published, .full hpackets hpublished hroom⟩
    · cases h

/-! ## What is left behind -/

/-- The packet is stored already, and nobody waits for it. -/
def Superfluous (r : Relay) (packet : Packet) : Prop :=
  ¬r.NotStored packet ∧ r.satisfied packet = []

theorem satisfied_congr (hp : s.pending = r.pending) (hd : s.host.digest = r.host.digest)
    (packet : Packet) : s.satisfied packet = r.satisfied packet := by
  unfold satisfied
  simp only [hp, answers_of_digest hd]

theorem Superfluous.congr {packet : Packet} (h : r.Superfluous packet)
    (hc : s.contents = r.contents) (hp : s.pending = r.pending)
    (hd : s.host.digest = r.host.digest) : s.Superfluous packet := by
  obtain ⟨hstored, hnobody⟩ := h
  refine ⟨?_, (satisfied_congr hp hd packet).trans hnobody⟩
  unfold NotStored at hstored ⊢
  rwa [hc]

/-- To publish packets that are stored and that nobody waits for ends a round, if it does anything. -/
theorem publishPackets_superfluous {packets : List Packet} {n : Nat}
    (h : r.publishPackets packets = (.ok n, s)) (hall : ∀ q ∈ packets, r.Superfluous q) :
    s = r ∨ s = r.endRound := by
  induction packets generalizing r n with
  | nil =>
    cases h
    exact .inl rfl
  | cons packet packets ih =>
    obtain ⟨hstored, hnobody⟩ := hall packet List.mem_cons_self
    have hstore : r.store packet { pinned := true } = (.ok false, r) := by
      have htakes : ¬r.contents.Takes packet { pinned := true } :=
        fun htakes => hstored (notStored_iff.2 htakes.new)
      rcases ContentStore.insert_cases_of_not_takes htakes r.now with ⟨heq, -⟩ | ⟨-, hnew⟩
      · rw [store, heq]
        rfl
      · exact (hstored (notStored_iff.2 hnew)).elim
    have hround : r.servePending packet = (0, r.endRound) := by
      rw [servePending, hnobody]
      rfl
    rw [publishPackets, hstore] at h
    dsimp only at h
    rw [hround] at h
    cases hrest : r.endRound.publishPackets packets with
    | mk outcome u =>
      rw [hrest] at h
      cases outcome with
      | error e => cases h
      | ok more =>
        cases h
        have hmore : ∀ q ∈ packets, r.endRound.Superfluous q := fun q hq =>
          (hall q (List.mem_cons_of_mem packet hq)).congr rfl rfl rfl
        rcases ih hrest hmore with rfl | rfl
        · exact .inr rfl
        · exact .inr (endRound_of_unmarked (unmarked_endRound r))

/-- Publishing adds no interest. -/
theorem pending_publishPackets {packets : List Packet} {key : InterestKey} {e : PendingInterest}
    (h : (r.publishPackets packets).2.pending.get? key = some e) : r.pending.get? key = some e := by
  induction packets generalizing r with
  | nil => exact h
  | cons packet packets ih =>
    obtain ⟨hpending, -, -⟩ := store_unrelated r packet { pinned := true }
    unfold publishPackets at h
    split at h
    · rename_i hstore
      rw [hstore] at hpending
      rwa [← hpending]
    · rename_i t hstore
      rw [hstore] at hpending
      rw [← hpending]
      exact (pending_servePending (ih h)).1

/-- Publications that change neither what is stored nor what is pending publish nothing but what is
    stored and nobody waits for. -/
theorem superfluous_of_publishPackets {packets : List Packet} {n : Nat}
    (hr : r.contents.slots.WellFormed) (h : r.publishPackets packets = (.ok n, s))
    (hc : s.contents = r.contents) (hp : s.pending = r.pending) :
    ∀ q ∈ packets, r.Superfluous q := by
  induction packets generalizing r n with
  | nil => exact fun q hq => by cases hq
  | cons packet packets ih =>
    obtain ⟨stored, t, more, hstore, hrest, -⟩ := publishPackets_cons h
    obtain ⟨hsame, -, hdigest⟩ := store_unrelated r packet { pinned := true }
    have hchanges := StoreChanges.publishPackets (t.servePending packet).2 packets
    have hleft := @pending_publishPackets (t.servePending packet).2 packets
    rw [hstore] at hsame hdigest
    rw [hrest] at hchanges hleft
    -- the packet was there, or else its entry would be new in the end
    unfold StoreChanges at hchanges
    rw [contents_stored hstore, hc] at hchanges
    obtain ⟨hcopy, hkept⟩ := ContentStore.duplicate_of_changes hr (room_of_store hstore) hchanges
    -- nobody waited for it, or else an interest would be missing in the end
    have hnobody : r.satisfied packet = [] := by
      refine List.eq_nil_iff_forall_not_mem.2 fun key hkey => ?_
      obtain ⟨e, he, hanswers⟩ := mem_satisfied.1 hkey
      rw [← hp] at he
      have hmiss := (pending_servePending (hleft he)).2
      rw [answers_of_digest hdigest, hanswers] at hmiss
      cases hmiss
    have hcontents : (t.servePending packet).2.contents = r.contents :=
      (contents_stored hstore).trans hkept
    have hpending : (t.servePending packet).2.pending = r.pending := by
      have hround := pending_of_tables (tables_servePending t packet)
      rw [satisfied_congr hsame hdigest, hnobody] at hround
      exact hround.trans hsame
    have hmore := ih (by rwa [hcontents]) hrest (hc.trans hcontents.symm)
      (hp.trans hpending.symm)
    intro q hq
    rcases List.mem_cons.1 hq with rfl | hq
    · exact ⟨fun hnew => hcopy (notStored_iff.1 hnew), hnobody⟩
    · exact (hmore q hq).congr hcontents.symm hpending.symm
        ((digest_servePending t packet).trans hdigest).symm

/-- A publication that fails leaves everything as it was if and only if all it had published by then
    was stored already, and nobody waited for it. It fails because a chunk cannot be encoded, and then
    nothing was published; or because there is no room for a chunk, and then those in front of it
    are stored and were served. -/
theorem addContent_untouched_iff {p : Publication} {e : RelayError} (hr : Reachable r)
    (h : r.addContent p = (.error e, s)) :
    ∃ published, FailsAfter r p published e s ∧
      (Untouched r s ↔ ∀ q ∈ published, r.Superfluous q) := by
  obtain ⟨published, hfails⟩ := failsAfter_of_error h
  refine ⟨published, hfails, ?_⟩
  cases hfails with
  | unencodable => exact iff_of_true (.refl r) fun q hq => by cases hq
  | @full _ packet _ n t hpackets hpublished hroom =>
    constructor
    · intro hsame
      exact superfluous_of_publishPackets hr.visited.sound.contents hpublished hsame.contents
        hsame.pending
    · intro hall
      have hsilent : ∀ u : Relay, u.host.effects = r.host.effects →
          r.sentSince (u.log .warn s!"Content store full, dropping {packet.label}") = [] := by
        intro u hu
        have hnone : ∀ effect ∈ ([] : List Effect), effect.isRecord = false := nofun
        refine sentSince_of_append ⟨.warn, s!"Content store full, dropping {packet.label}"⟩ ?_ hnone
        exact congrArg (· ++ [Effect.log _]) hu
      rcases publishPackets_superfluous hpublished hall with rfl | rfl
      · exact ⟨rfl, rfl, queues_of_links (links_log _ _ _), hsilent _ rfl⟩
      · refine ⟨rfl, rfl, queues_of_links ?_, hsilent _ rfl⟩
        exact (links_log _ _ _).trans (links_endRound r)

/-- A relay with room for one content. -/
def onePlace : Relay :=
  (Relay.fresh (Host.fresh ⟨0⟩ (fun _ => none) fun _ => true)).performAll [.setCacheLimit 1]

/-- Two chunks of one byte each. -/
def twoPages : Publication where
  name := ⟨.ndn, [[97]], none, ⟨false, false⟩⟩
  firstChunk := none
  bytes := [112, 113]
  chunkSize := 1
  count := 2

/-- The second chunk finds no room, and the first is stored. -/
theorem twoPages_touch : ∃ s, onePlace.addContent twoPages = (.error .cacheFull, s) ∧
    ¬Untouched onePlace s := by
  have hreached : Reachable onePlace := (Reachable.fresh _ _ _).performAll _
  have hstore : onePlace.contents = .empty 1 := rfl
  have hnothing : ∀ key e, onePlace.contents.get? key = some e → False := by
    intro key e he
    simp [hstore, ContentStore.empty, ContentStore.get?] at he
  have hdone : (onePlace.addContent twoPages).1 = .error .cacheFull := by decide +kernel
  cases hs : onePlace.addContent twoPages with
  | mk outcome s =>
    rw [hs] at hdone
    cases outcome with
    | ok n => cases hdone
    | error e =>
      cases hdone
      refine ⟨s, rfl, fun hsame => ?_⟩
      obtain ⟨published, hfails, huntouched⟩ := addContent_untouched_iff hreached hs
      cases hfails with
      | unencodable hpackets =>
        have hencoded : twoPages.packets.toOption.isSome = true := by decide +kernel
        rw [hpackets] at hencoded
        cases hencoded
      | @full _ packet _ _ _ _ hpublished hroom =>
        cases published with
        | nil =>
          -- the first chunk finds room
          cases hpublished
          obtain ⟨contents, hfull⟩ := hroom
          have htakes : onePlace.contents.Takes packet { pinned := true } := by
            refine ⟨Slots.find?_eq_none_iff.2 fun key e he => (hnothing key e he).elim, .inr rfl, ?_⟩
            rintro ⟨hreached, -⟩
            cases hreached
          obtain ⟨_, _, _, -, -, heq⟩ := ContentStore.insert_of_takes htakes onePlace.now
          cases heq.symm.trans hfull
        | cons first rest =>
          obtain ⟨hstored, -⟩ := huntouched.1 hsame first List.mem_cons_self
          exact hstored fun key e he => (hnothing key e he).elim

end Relay

end NameRelay
