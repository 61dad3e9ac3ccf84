-- SUMMARY: Nobody waits for what is stored, except for a fresh content while a stale one is stored.
import NameRelay.Proofs.Relay.Delivery
import NameRelay.Proofs.Relay.News

/-!
# Waiting for what is stored

An interest only waits if the store had no answer when it came, and a content is only stored
together with a round that satisfies the interests it answers. So no pending interest and no stored
content ever match, unless the interest insists on fresh content and the content is stale.

Most operations bring nothing new into the two tables; `NothingNew` is what they have in common. An
interest that starts to wait and a packet that is stored are the only news there can be, and each is
looked at by itself.
-/

namespace NameRelay

namespace Relay

/-- A pending interest that a stored content answers insists on fresh content, and the content is
    stale. -/
def Unanswered (r : Relay) : Prop :=
  ∀ key e, r.pending.get? key = some e → ∀ k c, r.contents.get? k = some c →
    r.answers e.packet c.packet = true → e.packet.details.mustBeFresh = true ∧ c.flags.stale = true

/-! ## News -/

namespace Unanswered

variable {r s : Relay}

theorem mono (h : r.Unanswered) (hs : NothingNew r s) : s.Unanswered := by
  intro key e he k c hc hanswers
  obtain ⟨old, hold, hpacket⟩ := hs.pending key e he
  obtain ⟨stored, hstored, hcontent, hstale⟩ := hs.contents k c hc
  rw [answers_of_digest hs.digest, hpacket, hcontent] at hanswers
  obtain ⟨hfresh, hwas⟩ := h key old hold k stored hstored hanswers
  rw [hpacket]
  exact ⟨hfresh, hstale hwas⟩

/-- An interest may wait if the store has no answer to it. -/
theorem startPending (h : r.Unanswered) (origin : FaceKey) {interest : Packet}
    (hnone : r.stored? interest = none) : (r.startPending origin interest).Unanswered := by
  have hput : ({ r with pending := (r.pending.insert (.fresh interest origin r.now)).2 } :
      Relay).Unanswered := by
    intro key e he k c hc hanswers
    rcases Slots.get?_of_get?_insert he with rfl | hold
    · have hmiss := Slots.find?_eq_none_iff.1 hnone k c hc
      have hanswers' : r.answers interest c.packet = true := hanswers
      rw [answersFromStore, hanswers', Bool.and_true, Bool.not_eq_false'] at hmiss
      exact Bool.and_eq_true_iff.1 hmiss
    · exact h key e hold k c hc hanswers
  unfold Relay.startPending
  dsimp only
  split
  · exact (hput.mono (.note _ _)).mono (.propagate _ _)
  · exact (hput.mono (.note _ _)).mono (.of_still (log_still _ _ _))

theorem handleInterest (h : r.Unanswered) (origin : FaceKey) (interest : Packet) :
    (r.handleInterest origin interest).2.Unanswered := by
  obtain ⟨nonces, hnonces⟩ := recordNonce_eq r interest
  have hrecorded : ({ r with nonces } : Relay).Unanswered := h.mono (.of_same rfl rfl rfl)
  unfold Relay.handleInterest
  split
  · rename_i s hs
    cases hnonces.symm.trans (congrArg Prod.snd hs)
    exact hrecorded.mono (.of_still (log_still _ _ _))
  · rename_i s hs
    cases hnonces.symm.trans (congrArg Prod.snd hs)
    split
    · exact hrecorded.mono (.answerFromStore _ origin interest _)
    · rename_i hnone
      split
      · exact hrecorded.mono (.joinPending _ origin _)
      · exact hrecorded.startPending origin hnone

end Unanswered

/-- Only this packet may be new in the store when it is stored. -/
theorem get?_of_get?_store {r : Relay} {content : Packet} {flags : ContentFlags} {key : ContentKey}
    {c : StoredContent} (h : (r.store content flags).2.contents.get? key = some c) :
    c.packet = content ∨ r.contents.get? key = some c := by
  rw [contents_store] at h
  exact ContentStore.get?_of_get?_insert h

namespace Unanswered

variable {r : Relay}

/-- A content may be stored if no interest that it answers is pending. -/
theorem store (h : r.Unanswered) {content : Packet}
    (hnone : ∀ key e, r.pending.get? key = some e → r.answers e.packet content = false)
    (flags : ContentFlags) : (r.store content flags).2.Unanswered := by
  obtain ⟨hpending, -, hdigest⟩ := store_unrelated r content flags
  intro key e he k c hc hanswers
  rw [hpending] at he
  rw [answers_of_digest hdigest] at hanswers
  rcases get?_of_get?_store hc with hnew | hold
  · rw [hnew, hnone key e he] at hanswers
    cases hanswers
  · exact h key e he k c hold hanswers

/-- A content may also be stored first, and then satisfy the interests that it answers. -/
theorem publish (h : r.Unanswered) (content : Packet) (flags : ContentFlags) :
    ((r.store content flags).2.servePending content).2.Unanswered := by
  obtain ⟨hpending, -, hdigest⟩ := store_unrelated r content flags
  intro key e he k c hc hanswers
  obtain ⟨hstays, hmiss⟩ := pending_servePending he
  rw [contents_servePending] at hc
  rw [answers_of_digest (digest_servePending _ content)] at hanswers
  rcases get?_of_get?_store hc with hnew | hold
  · rw [hnew, hmiss] at hanswers
    cases hanswers
  · rw [hpending] at hstays
    rw [answers_of_digest hdigest] at hanswers
    exact h key e hstays k c hold hanswers

theorem handleContent (h : r.Unanswered) (origin : FaceKey) (content : Packet) :
    (r.handleContent origin content).2.Unanswered := by
  have hserved := h.mono (.servePending r content)
  have hnone : ∀ key e, (r.servePending content).2.pending.get? key = some e →
      (r.servePending content).2.answers e.packet content = false := by
    intro key e he
    rw [answers_of_digest (digest_servePending r content)]
    exact (pending_servePending he).2
  unfold Relay.handleContent
  split
  · exact h.mono (.of_still (log_still _ _ _))
  · split
    · rename_i s hs
      rw [hs] at hserved
      exact hserved.mono (.of_still (log_still _ _ _))
    · rename_i n s _ hs
      rw [hs] at hserved hnone
      split
      · exact hserved.store hnone {}
      · exact hserved

/-! ## Runs -/

/-- Every move keeps stored contents and pending interests apart. -/
theorem move {s : Relay} (h : r.Unanswered) (hm : Move r s) : s.Unanswered := by
  cases hm with
  | interest _ _ => exact h.handleInterest _ _
  | content _ _ => exact h.handleContent _ _
  | @publish _ _ packet _ _ hs =>
    have hpublished := h.publish packet { pinned := true }
    rw [hs] at hpublished
    exact hpublished
  | @refuse _ _ packet _ _ hs => exact h.mono (.refuse hs)
  | log => exact h.mono (.of_still (emit_still r rfl))
  | removeContent => exact h.mono (.removeContent r _)
  | removeFace => exact h.mono (.removeFace r _)
  | ageContents => exact h.mono (.ageContents r)
  | ageInterests => exact h.mono (.ageInterests r)
  | clearToSend => exact h.mono (.of_still (clearToSend_still r _))
  | armAgeing => exact h.mono (.armAgeing r)
  | stop => exact h.mono (.stop r)
  | expire hexpire =>
    obtain ⟨timer, -, htimer⟩ := Option.map_eq_some_iff.1 hexpire
    cases htimer
    exact h.mono (.of_same rfl rfl rfl)
  | setCacheLimit => exact h.mono (.of_contents rfl rfl fun _ c hc => ⟨c, hc, rfl, id⟩)
  | fragment | newFace | flagFace | newApplicationFace | hear | newInterface | pace
    | newRoute | removeRoute | nextNonce | disarm | clock => exact h.mono (.of_same rfl rfl rfl)

end Unanswered

theorem unanswered_withLimits (host : Host) (c : Config) : (withLimits host c).Unanswered := by
  intro key e he
  simp [withLimits, PendingTable.get?, PendingTable.empty] at he

/-- Nobody waits for what is stored: in every reachable state a pending interest that a stored
    content answers insists on fresh content, and the content is stale. -/
theorem stale_of_answers {r : Relay} (h : Reachable r) {key : InterestKey} {e : PendingInterest}
    {k : ContentKey} {c : StoredContent} (he : r.pending.get? key = some e)
    (hc : r.contents.get? k = some c) (hanswers : r.answers e.packet c.packet = true) :
    e.packet.details.mustBeFresh = true ∧ c.flags.stale = true := by
  have hkept : r.Unanswered :=
    h.visited.keeps (fun _ _ _ _ => unanswered_withLimits _ _) fun _ hr hm => hr.move hm
  exact hkept key e he k c hc hanswers

/-- The reader that asked for fresh content waits for the stale one. -/
theorem stale_of_answers_afterStaleness :
    ∃ key e k c, afterStaleness.pending.get? key = some e ∧
      afterStaleness.contents.get? k = some c ∧
      afterStaleness.answers e.packet c.packet = true ∧
      e.packet.details.mustBeFresh = true ∧ c.flags.stale = true := by
  have hreached : Reachable afterStaleness := (Reachable.fresh _ _ _).performAll _
  have hboth : (afterStaleness.pending.get? ⟨0, 1⟩).any (fun e =>
      (afterStaleness.contents.get? ⟨0, 0⟩).any fun c =>
        afterStaleness.answers e.packet c.packet) = true := by decide +kernel
  obtain ⟨e, he, hrest⟩ := Option.any_eq_true _ _ |>.1 hboth
  obtain ⟨c, hc, hanswers⟩ := Option.any_eq_true _ _ |>.1 hrest
  exact ⟨_, e, _, c, he, hc, hanswers, stale_of_answers hreached he hc hanswers⟩

end Relay

end NameRelay
