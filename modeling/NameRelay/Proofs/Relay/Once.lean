-- SUMMARY: An arriving content is served once to each face that waits, and nothing else happens.
import NameRelay.Proofs.Relay.Delivery

/-!
# Served once

`Delivers r content s` says all that the arrival of a content comes to if somebody waits for it: each
face that waits is served once, the interests that the content answers are gone, and the content is
stored if there is room. Nothing else happens. The history then tells of one serving for each face
that waits. The main statement is that it comes to this whenever the content is not stored yet and no
face carries the mark of a round.
-/

namespace NameRelay

namespace Relay

/-- What the arrival of a content that somebody waits for makes of `r`. -/
structure Delivers (r : Relay) (content : Packet) (s : Relay) : Prop where
  /-- The interests that it answers are not pending any more, and all others are. -/
  pending : ∀ key e, s.pending.get? key = some e ↔
    r.pending.get? key = some e ∧ r.answers e.packet content = false
  /-- Each face that waits was served once, and no other. Otherwise only the two tables changed,
      and the store may have left records behind. -/
  served : ∃ records, s = ({ r.serveEach content (r.waiting content) with
    pending := s.pending, contents := s.contents } : Relay).logAll records
  /-- It is stored now, unless nothing is to be stored or nothing may go for it. -/
  stored : (∃ key c, s.contents.get? key = some c ∧ c.packet = content) ↔
    r.contents.limit ≠ 0 ∧ ¬(r.contents.isFull = true ∧ r.contents.AllPinned)
  unmarked : s.Unmarked

/-- What the arrival adds to the history is one serving for each face that waits, and nothing
    else. -/
theorem Delivers.served_once {r s : Relay} {content : Packet} (hr : Visited r)
    (h : Delivers r content s) :
    ∃ served : List FaceKey, s.history = r.history ++ served.map (.served content) ∧
      served.Nodup ∧ ∀ face, face ∈ served ↔ r.WaitsFor content face := by
  obtain ⟨records, hs⟩ := h.served
  have hreach : ∀ face ∈ r.waiting content, r.Reaches face := fun face hface =>
    hr.reaches (mem_waiting.1 hface)
  refine ⟨r.waiting content, ?_, nodup_waiting r content, fun face => mem_waiting⟩
  rw [hs, history_of_still (logAll_still _ records)]
  exact history_serveEach hreach

/-- Nobody is served with a content that nobody waits for. -/
theorem handleContent_of_nobody {r : Relay} {content : Packet} (hnew : r.NotStored content)
    (hmarks : r.Unmarked) (hnobody : r.satisfied content = []) (origin : FaceKey) :
    (r.handleContent origin content).2 = r.log .debug
      ("Unsolicited " ++ content.label ++ " from " ++ FaceKey.text origin) := by
  have hround : r.servePending content = (0, r) := by
    rw [servePending, hnobody]
    exact congrArg (Prod.mk 0) (endRound_of_unmarked hmarks)
  rw [handleContent, notStored_iff.1 hnew, hround]
  rfl

/-- A content that somebody waits for goes through a round, and to the store. -/
theorem handleContent_of_somebody {r : Relay} {content : Packet} (hnew : r.NotStored content)
    (hsomebody : r.satisfied content ≠ []) (origin : FaceKey) :
    ∃ records, (r.handleContent origin content).2 =
      ({ (r.servePending content).2 with
        contents := (r.contents.insert content {} r.now).2 } : Relay).logAll records := by
  have hcontents := contents_servePending r content
  have hnow := now_of_standing (standing_servePending r content)
  have hcount : (r.servePending content).1 ≠ 0 := fun hzero =>
    hsomebody (List.length_eq_zero_iff.1 hzero)
  unfold handleContent
  rw [notStored_iff.1 hnew, Option.isSome_none, if_neg Bool.false_ne_true]
  split
  · rename_i s hs
    rw [hs] at hcount
    exact absurd rfl hcount
  · rename_i n s _ hs
    rw [hs] at hcontents hnow ⊢
    dsimp only at hcontents hnow ⊢
    split
    · have hstored := store_snd s content {}
      rw [hcontents, hnow] at hstored
      exact ⟨_, hstored⟩
    · rename_i henabled
      have hlimit : r.contents.limit = 0 := by
        simpa [ContentStore.isEnabled, hcontents] using henabled
      have hkept : (r.contents.insert content {} r.now).2 = s.contents := by
        rw [hcontents]
        refine ContentStore.insert_of_not_takes (fun htakes => ?_) r.now
        exact (htakes.kept.resolve_right Bool.false_ne_true) hlimit
      exact ⟨[], by rw [hkept]; rfl⟩

/-- A content that is not stored yet is served once to each face that waits for it, if no face
    carries a mark: the interests that it answers are dropped, and it is stored if there is room.
    If nobody waits for it, nothing happens. This holds wherever a run leads, in the middle of a
    buffer as well as between calls. -/
theorem handleContent_delivers {r : Relay} (hr : Visited r) {content : Packet}
    (hnew : r.NotStored content) (hmarks : r.Unmarked) (origin : FaceKey) :
    (r.satisfied content = [] → ∃ text,
      (r.handleContent origin content).2 = r.log .debug text) ∧
    (r.satisfied content ≠ [] → Delivers r content (r.handleContent origin content).2) := by
  refine ⟨fun hnobody => ⟨_, handleContent_of_nobody hnew hmarks hnobody origin⟩,
    fun hsomebody => ?_⟩
  obtain ⟨records, heq⟩ := handleContent_of_somebody hnew hsomebody origin
  have hround := servePending_of_unmarked hr hmarks content
  have hstill := logAll_still
    { (r.servePending content).2 with contents := (r.contents.insert content {} r.now).2 } records
  rw [← heq] at hstill
  have hpending : (r.handleContent origin content).2.pending = (r.servePending content).2.pending :=
    (pending_of_still hstill :)
  have hcontents : (r.handleContent origin content).2.contents =
      (r.contents.insert content {} r.now).2 := (contents_of_still hstill :)
  refine ⟨fun key e => ?_, ⟨records, ?_⟩, ?_, fun key => ?_⟩
  · rw [hpending]
    exact pending_servePending_iff
  · rw [hpending, hcontents, heq, hround]
  · rw [hcontents, ContentStore.holds_insert_iff hr.sound.contents (notStored_iff.1 hnew) {} r.now]
    exact ⟨fun htakes => ⟨htakes.kept.resolve_right Bool.false_ne_true, htakes.room⟩,
      fun h => ⟨notStored_iff.1 hnew, .inl h.1, h.2⟩⟩
  · rw [isMarked_of_faces (faces_of_still hstill) key]
    exact unmarked_servePending r content key

/-- Two readers wait for `/a`, and the second also for anything at all. The interface is paced, so
    what is sent waits there. -/
def twoReaders : Relay :=
  (Relay.fresh (Host.fresh ⟨0⟩ (fun _ => none) fun _ => true)).performAll
    [.addInterface .application 0 {}, .setPacing 0 (some 1), .setCacheLimit 1,
      .receive 0 [5, 11, 7, 3, 8, 1, 97, 10, 4, 0, 0, 0, 1] (.path "first"),
      .receive 0 [5, 8, 7, 0, 10, 4, 0, 0, 0, 2] (.path "second"),
      .receive 0 [5, 11, 7, 3, 8, 1, 97, 10, 4, 0, 0, 0, 3] (.path "second")]

/-- Both interests are satisfied, and each reader is served once. -/
theorem handleContent_delivers_twoReaders :
    twoReaders.satisfied shortLived = [⟨0, 0⟩, ⟨1, 0⟩] ∧
      twoReaders.waiting shortLived = [⟨0, 0⟩, ⟨1, 0⟩] ∧
      Delivers twoReaders shortLived (twoReaders.handleContent ⟨1, 0⟩ shortLived).2 := by
  have hreached : Reachable twoReaders := (Reachable.fresh _ _ _).performAll _
  have hnew : twoReaders.NotStored shortLived := by decide +kernel
  have hmarks : twoReaders.Unmarked := by decide +kernel
  have hsatisfied : twoReaders.satisfied shortLived = [⟨0, 0⟩, ⟨1, 0⟩] := by decide +kernel
  refine ⟨hsatisfied, by decide +kernel, ?_⟩
  refine (handleContent_delivers hreached.visited hnew hmarks _).2 ?_
  rw [hsatisfied]
  exact List.cons_ne_nil _ _

end Relay

end NameRelay
