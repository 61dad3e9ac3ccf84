-- SUMMARY: Most operations bring nothing new into the tables of interests and contents.
import NameRelay.Proofs.Relay.Standing
import NameRelay.Proofs.Table.Contents
import NameRelay.Relay.Publish

/-!
# Operations without news

Pending interests are joined, sent again and dropped, and contents are used, marked stale and
dropped, but few operations put a packet into the two tables. `NothingNew` says of the others that
they do not. What holds between pending interests and stored contents because of their packets
survives such an operation.
-/

namespace NameRelay

namespace Relay

/-- No interest is pending in `s` and no content stored that is not in `r`, and what is stale in `r`
    is not fresh in `s`. -/
structure NothingNew (r s : Relay) : Prop where
  digest : s.host.digest = r.host.digest
  pending : ∀ key e, s.pending.get? key = some e →
    ∃ old, r.pending.get? key = some old ∧ e.packet = old.packet
  contents : ∀ key c, s.contents.get? key = some c →
    ∃ old, r.contents.get? key = some old ∧ c.packet = old.packet ∧
      (old.flags.stale = true → c.flags.stale = true)

namespace NothingNew

variable {r s t : Relay}

/-- The interests may go and change in all but their packets. -/
theorem of_pending (hd : s.host.digest = r.host.digest) (hc : s.contents = r.contents)
    (hp : ∀ key e, s.pending.get? key = some e →
      ∃ old, r.pending.get? key = some old ∧ e.packet = old.packet) : NothingNew r s := by
  refine ⟨hd, hp, fun key c h => ?_⟩
  rw [hc] at h
  exact ⟨c, h, rfl, id⟩

/-- The contents may go and become stale. -/
theorem of_contents (hd : s.host.digest = r.host.digest) (hp : s.pending = r.pending)
    (hc : ∀ key c, s.contents.get? key = some c → ∃ old, r.contents.get? key = some old ∧
      c.packet = old.packet ∧ (old.flags.stale = true → c.flags.stale = true)) :
    NothingNew r s := by
  refine ⟨hd, fun key e h => ?_, hc⟩
  rw [hp] at h
  exact ⟨e, h, rfl⟩

theorem of_same (hd : s.host.digest = r.host.digest) (hp : s.pending = r.pending)
    (hc : s.contents = r.contents) : NothingNew r s := by
  refine of_pending hd hc fun key e h => ?_
  rw [hp] at h
  exact ⟨e, h, rfl⟩

theorem refl (r : Relay) : NothingNew r r := of_same rfl rfl rfl

theorem of_tables (h : s.tables = r.tables) : NothingNew r s :=
  of_same (digest_of_tables h) (pending_of_tables h) (contents_of_tables h)

theorem of_still (h : s.still = r.still) : NothingNew r s := of_tables (tables_of_still h)

theorem note (r : Relay) (deed : Deed) : NothingNew r (r.note deed) := of_tables rfl

theorem trans (h : NothingNew r s) (h' : NothingNew s t) : NothingNew r t := by
  refine ⟨h'.digest.trans h.digest, fun key e he => ?_, fun key c hc => ?_⟩
  · obtain ⟨mid, hmid, hsame⟩ := h'.pending key e he
    obtain ⟨old, hold, hsame'⟩ := h.pending key mid hmid
    exact ⟨old, hold, hsame.trans hsame'⟩
  · obtain ⟨mid, hmid, hsame, hstale⟩ := h'.contents key c hc
    obtain ⟨old, hold, hsame', hstale'⟩ := h.contents key mid hmid
    exact ⟨old, hold, hsame.trans hsame', fun ho => hstale (hstale' ho)⟩

theorem modifyPending (r : Relay) (key : InterestKey) (f : PendingInterest → PendingInterest)
    (hf : ∀ e, (f e).packet = e.packet) :
    NothingNew r { r with pending := r.pending.modify key f } := by
  refine of_pending rfl rfl fun k e he => ?_
  obtain ⟨old, hold, rfl | ⟨-, rfl⟩⟩ := Slots.get?_of_get?_modify he
  · exact ⟨e, hold, rfl⟩
  · exact ⟨old, hold, hf old⟩

theorem propagate (r : Relay) (key : InterestKey) : NothingNew r (r.propagate key).2 :=
  (modifyPending r key (fun e => { e with lastAttempt := r.now }) fun _ => rfl).trans
    (of_tables (tables_propagate r key))

theorem joinPending (r : Relay) (origin : FaceKey) (key : InterestKey) :
    NothingNew r (r.joinPending origin key) := by
  have hjoined := modifyPending r key (·.addWaiter origin r.now) fun e =>
    e.packet_addWaiter origin r.now
  unfold Relay.joinPending
  dsimp only
  split
  · exact hjoined.trans (propagate _ key)
  · exact hjoined

theorem answerFromStore (r : Relay) (origin : FaceKey) (interest : Packet) (key : ContentKey) :
    NothingNew r (r.answerFromStore origin interest key).2 := by
  have htouched : NothingNew r { r with contents := r.contents.touch key r.now } := by
    refine of_contents rfl rfl fun k c hc => ?_
    obtain ⟨old, hold, rfl | ⟨-, rfl⟩⟩ := Slots.get?_of_get?_modify hc <;>
      exact ⟨_, hold, rfl, id⟩
  unfold Relay.answerFromStore
  dsimp only
  split
  · exact htouched
  · exact htouched.trans (of_tables ((tables_serve _ _ _).trans (tables_of_still (log_still _ _ _))))

theorem servePending (r : Relay) (content : Packet) : NothingNew r (r.servePending content).2 := by
  refine of_pending (digest_servePending r content) (contents_servePending r content)
    fun key e he => ?_
  exact ⟨e, (pending_servePending he).1, rfl⟩

/-- A content that finds no room changes nothing. -/
theorem refuse {content : Packet} {flags : ContentFlags} {e : RelayError}
    (h : r.store content flags = (.error e, s)) : NothingNew r s := by
  unfold Relay.store at h
  split at h
  rename_i outcome contents hinsert
  dsimp only at h
  split at h
  · cases h
  · cases h
  · cases h
    cases ContentStore.insert_full hinsert
    exact of_still (logAll_still _ _)

theorem removeContent (r : Relay) (name : Name) : NothingNew r (r.removeContent name).2 := by
  refine of_contents rfl rfl fun key c hc => ?_
  have hget := (Slots.get?_removeWhere r.contents.slots (ContentStore.isNamed name) key).symm.trans hc
  exact ⟨c, (Option.filter_eq_some_iff.1 hget).1, rfl, id⟩

theorem removeFace (r : Relay) (key : FaceKey) : NothingNew r (r.removeFace key).2 := by
  unfold Relay.removeFace
  split
  · exact refl r
  · refine of_pending rfl rfl fun k e he => ?_
    have hget := (Slots.get?_drain r.pending.slots (·.removeWaiter key) (·.waiters.isEmpty)
      k).symm.trans he
    obtain ⟨old, hold, rfl⟩ := Option.map_eq_some_iff.1 (Option.filter_eq_some_iff.1 hget).1
    exact ⟨old, hold, rfl⟩

theorem ageContents (r : Relay) : NothingNew r r.ageContents := by
  have hdropped : NothingNew r
      { r with contents := (r.contents.expire r.isExpiredContent).2 } := by
    refine of_contents rfl rfl fun key c hc => ?_
    have hget := (Slots.get?_removeWhere r.contents.slots r.isExpiredContent key).symm.trans hc
    exact ⟨c, (Option.filter_eq_some_iff.1 hget).1, rfl, id⟩
  have hmarked : ∀ s : Relay, NothingNew s s.markStale := by
    intro s
    refine of_contents rfl rfl fun key c hc => ?_
    have hget := (Slots.get?_mapEntries s.contents.slots _ key).symm.trans hc
    obtain ⟨old, hold, rfl⟩ := Option.map_eq_some_iff.1 hget
    refine ⟨old, hold, ?_, ?_⟩
    · split <;> rfl
    · intro hstale
      split
      · rfl
      · exact hstale
  exact (hdropped.trans (of_still (logAll_still _ _))).trans (hmarked _)

theorem retransmit (r : Relay) (key : InterestKey) : NothingNew r (r.retransmit key) := by
  have hsent := propagate r key
  rcases retransmit_cases r key with heq | heq <;> rw [heq]
  · exact hsent
  · exact hsent.trans (modifyPending _ key _ fun _ => rfl)

theorem ageInterests (r : Relay) : NothingNew r r.ageInterests := by
  have hdropped : NothingNew r { r with pending := (r.pending.expire r.isExpiredInterest).2 } := by
    refine of_pending rfl rfl fun key e he => ?_
    have hget := (Slots.get?_removeWhere r.pending.slots r.isExpiredInterest key).symm.trans he
    exact ⟨e, (Option.filter_eq_some_iff.1 hget).1, rfl⟩
  exact List.foldlRecOn (motive := NothingNew r) _ Relay.retransmit
    (hdropped.trans (of_still (logAll_still _ _))) fun s hs key _ => hs.trans (retransmit s key)

theorem armAgeing (r : Relay) : NothingNew r r.armAgeing.2 := by
  obtain ⟨timer, htables⟩ := tables_armAgeing r
  have hset : NothingNew r { r with ageingTimer := timer } := of_same rfl rfl rfl
  exact hset.trans (of_tables htables)

theorem stop (r : Relay) : NothingNew r r.stop := by
  have hstopped : NothingNew r { r with ageingTimer := none } := of_same rfl rfl rfl
  exact hstopped.trans (of_tables (tables_stop r))

end NothingNew

end Relay

end NameRelay
