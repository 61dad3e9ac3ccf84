-- SUMMARY: A content that arrives reaches everyone who waits for it, unless it is stored already.
import NameRelay.Proofs.Relay.Round

/-!
# Delivery of contents

`Satisfies r s content` says what the arrival of a content should bring about: no interest that it
answers is pending any more, and each face that waited has been served. The main statement gives the
exact condition. A content whose bytes are stored already is dropped before anybody is served, which
fails whoever waits for it: those who insist on fresh content while the stored packet is stale. A
face that carries the mark of a round when the round begins is passed over.
-/

namespace NameRelay

namespace Relay

/-! ## Who waits, and what an arrival brings about -/

/-- No interest that the content answers is pending in `s`, and everyone who waited for it in `r`
    has been served since. -/
structure Satisfies (r s : Relay) (content : Packet) : Prop where
  nothingPending : ∀ key e, s.pending.get? key = some e → s.answers e.packet content = false
  everyoneServed : ∀ face, r.WaitsFor content face → .served content face ∈ r.since s

/-- What a round of deliveries did: it served everyone who waited and was not marked, and nobody that
    was. -/
theorem servePending_round {r : Relay} (hr : Visited r) (content : Packet) :
    ∃ new, (r.servePending content).2.history = r.history ++ new ∧
      (∀ face, r.WaitsFor content face → r.isMarked face = true ∨ .served content face ∈ new) ∧
      ∀ face, .served content face ∈ new → r.isMarked face = false := by
  let served := ((r.askers content).filter fun key => !r.isMarked key).eraseDups
  have hmem : ∀ {face}, face ∈ served ↔ r.WaitsFor content face ∧ r.isMarked face = false := by
    intro face
    rw [List.mem_eraseDups, List.mem_filter, mem_askers, Bool.not_eq_true']
  have hreach : ∀ face ∈ served, r.endRound.Reaches face := fun face hface =>
    (hr.reaches (hmem.1 hface).1).of_tables (tables_endRound r)
  have hhistory : (r.endRound.serveEach content served).history =
      r.endRound.history ++ served.map (.served content) := history_serveEach hreach
  refine ⟨served.map (.served content), ?_, fun face hwaits => ?_, fun face hface => ?_⟩
  · rw [servePending_eq hr]
    exact hhistory
  · cases hmark : r.isMarked face with
    | true => exact .inl rfl
    | false => exact .inr (List.mem_map_of_mem (hmem.2 ⟨hwaits, hmark⟩))
  · obtain ⟨k, hk, heq⟩ := List.mem_map.1 hface
    cases heq
    exact (hmem.1 hk).2

/-! ## Arrival -/

/-- No stored packet has the bytes of this one. -/
def NotStored (r : Relay) (content : Packet) : Prop :=
  ∀ key e, r.contents.get? key = some e → e.packet.sameBytes content = false

theorem notStored_iff {r : Relay} {content : Packet} :
    r.NotStored content ↔ r.contents.duplicate? content = none :=
  Slots.find?_eq_none_iff.symm

instance (r : Relay) (content : Packet) : Decidable (r.NotStored content) :=
  decidable_of_iff (r.contents.duplicate? content = none) notStored_iff.symm

/-- Storing a content touches neither the pending table nor the history. -/
theorem store_unrelated (r : Relay) (content : Packet) (flags : ContentFlags) :
    (r.store content flags).2.pending = r.pending ∧
      (r.store content flags).2.history = r.history ∧
      (r.store content flags).2.host.digest = r.host.digest := by
  have hstill := logAll_still
    { r with contents := (r.contents.insert content flags r.now).2 }
    ((r.contents.insert content flags r.now).1.records content)
  rw [store_snd]
  exact ⟨(pending_of_still hstill :), (history_of_still hstill :), (digest_of_still hstill :)⟩

theorem contents_store (r : Relay) (content : Packet) (flags : ContentFlags) :
    (r.store content flags).2.contents = (r.contents.insert content flags r.now).2 := by
  rw [store_snd]
  exact (contents_of_still (logAll_still _ _) :)

/-- A content that is not stored is taken in by a round of deliveries. -/
theorem handleContent_of_notStored {r : Relay} {content : Packet} (h : r.NotStored content)
    (origin : FaceKey) :
    (r.handleContent origin content).2.pending = (r.servePending content).2.pending ∧
      (r.handleContent origin content).2.history = (r.servePending content).2.history ∧
      (r.handleContent origin content).2.host.digest = r.host.digest := by
  have hdigest := digest_of_tables (tables_servePending r content)
  unfold handleContent
  rw [notStored_iff.1 h]
  simp only [Option.isSome_none, Bool.false_eq_true, if_false]
  split
  · rename_i s hs
    rw [hs] at hdigest
    exact ⟨by rw [hs]; rfl, by rw [hs]; rfl, hdigest⟩
  · rename_i n s _ hs
    rw [hs] at hdigest ⊢
    split
    · obtain ⟨hpending, hhistory, hsame⟩ := store_unrelated s content {}
      exact ⟨hpending, hhistory, hsame.trans hdigest⟩
    · exact ⟨rfl, rfl, hdigest⟩

/-- A content that is stored already changes nothing but the records. -/
theorem handleContent_of_stored {r : Relay} {content : Packet} (h : ¬r.NotStored content)
    (origin : FaceKey) :
    (r.handleContent origin content).2.still = r.still := by
  have hdup : (r.contents.duplicate? content).isSome = true := by
    rw [Option.isSome_iff_ne_none]
    exact fun hnone => h (notStored_iff.2 hnone)
  unfold handleContent
  rw [if_pos hdup]
  exact log_still r _ _

/-- The arrival of a content satisfies everyone who waits for it if and only if nobody does, or the
    content is not stored yet and nobody who waits carries the mark of a round. -/
theorem handleContent_satisfies_iff {onFragment : FragmentHandler} {r : Relay} {key : FaceKey}
    {content : Packet} (h : Handles onFragment r key content) :
    Satisfies r (r.handleContent key content).2 content ↔
      ∀ face, r.WaitsFor content face → r.NotStored content ∧ r.isMarked face = false := by
  have hr := h.knows.consistent
  by_cases hstored : r.NotStored content
  · obtain ⟨new, hnew, hserved, honce⟩ := servePending_round h.visited.1 content
    obtain ⟨hpending, hhistory, hdigest⟩ := handleContent_of_notStored hstored key
    have hsince : r.since (r.handleContent key content).2 = new :=
      since_of_append (hhistory.trans hnew)
    constructor
    · intro hs face hwaits
      have hdeed := hs.everyoneServed face hwaits
      rw [hsince] at hdeed
      exact ⟨hstored, honce face hdeed⟩
    · intro hall
      refine ⟨?_, ?_⟩
      · intro k e he
        rw [hpending] at he
        rw [answers_of_digest hdigest]
        exact (pending_servePending he).2
      · intro face hwaits
        rw [hsince]
        refine (hserved face hwaits).resolve_left fun hmarked => ?_
        rw [(hall face hwaits).2] at hmarked
        cases hmarked
  · have hstill := handleContent_of_stored hstored key
    have hsince : r.since (r.handleContent key content).2 = [] :=
      since_of_eq (history_of_still hstill)
    constructor
    · intro hs face hwaits
      have hdeed := hs.everyoneServed face hwaits
      rw [hsince] at hdeed
      cases hdeed
    · intro hall
      have hnobody : ∀ face, ¬r.WaitsFor content face :=
        fun face hwaits => hstored (hall face hwaits).1
      refine ⟨?_, fun face hwaits => (hnobody face hwaits).elim⟩
      intro k e he
      rw [pending_of_still hstill] at he
      rw [answers_of_digest (digest_of_still hstill)]
      refine Bool.eq_false_iff.2 fun hanswers => ?_
      -- an entry is never without a waiter, so somebody would wait
      obtain ⟨w, hw⟩ := List.exists_mem_of_ne_nil _ (hr.waited k e he)
      exact hnobody w.face ⟨k, e, he, hanswers, List.mem_map_of_mem hw⟩

/-- A content `/a` that stays fresh for a millisecond. -/
def shortLived : Packet where
  bytes := [6, 20, 7, 3, 8, 1, 97, 20, 3, 25, 1, 1, 21, 1, 112, 22, 3, 27, 1, 0, 23, 0]
  body := .message .content ⟨.ndn, [[97]], none, ⟨false, false⟩⟩ (some ⟨14, 15⟩)
  details := .ndn { minSuffix := 0, maxSuffix := 64, freshness := some 1 }

/-- A reader asked for the content and got it, and asks for fresh content once it is stale. The
    interface is paced, so what is sent waits there. -/
def afterStaleness : Relay :=
  (Relay.fresh (Host.fresh ⟨0⟩ (fun _ => none) fun _ => true)).performAll
    [.addInterface .application 0 {}, .setPacing 0 (some 1), .setCacheLimit 1,
      .receive 0 [5, 11, 7, 3, 8, 1, 97, 10, 4, 0, 0, 0, 1] (.path "reader"),
      .receive 0 shortLived.bytes (.path "publisher"), .clock ⟨1000⟩, .onTimer .ageing,
      .receive 0 [5, 15, 7, 3, 8, 1, 97, 9, 2, 18, 0, 10, 4, 0, 0, 0, 2] (.path "reader")]

/-- The publisher sends the same content again, and the reader does not get it. -/
theorem handleContent_passes_over_stale :
    ∃ (r : Relay) (key : FaceKey), Handles takeFragment r key shortLived ∧
      ¬Satisfies r (r.handleContent key shortLived).2 shortLived := by
  let heard : Relay := afterStaleness.modifyFace ⟨1, 0⟩ fun f =>
    { f with lastUsed := afterStaleness.now }
  have hreached : Reachable afterStaleness := (Reachable.fresh _ _ _).performAll _
  have hknown : afterStaleness.findFace? 0 (.path "publisher") = some ⟨1, 0⟩ := by
    decide +kernel
  have hsender : afterStaleness.sender 0 (.path "publisher") = (.ok ⟨1, 0⟩, heard) := by
    simp only [sender, faceFor, hknown, heard]
  have hread : (Datagram.read shortLived.bytes).packets = [shortLived] := by decide +kernel
  have harrives := Handles.received hreached hsender ⟨[], [], hread, rfl⟩
  have hwaits : WaitsFor (heard.announce ⟨1, 0⟩ shortLived) shortLived ⟨0, 0⟩ := by
    decide +kernel
  refine ⟨_, _, harrives, fun hs => ?_⟩
  have hfresh := ((handleContent_satisfies_iff harrives).1 hs _ hwaits).1
  exact absurd hfresh (by decide +kernel)

end Relay

end NameRelay
