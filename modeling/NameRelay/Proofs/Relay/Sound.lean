-- SUMMARY: Every face leads somewhere, and the content store finds what it holds.
import NameRelay.Proofs.Relay.Places
import NameRelay.Proofs.Table.Contents

/-!
# Soundness of faces and contents

A face either belongs to an interface, or it stands for the local application. So whatever is served
to a face goes somewhere. And the arena of the content store is well formed, so what is put in the
store is found there.
-/

namespace NameRelay

/-- The face belongs to an interface, or it stands for the application. -/
def Face.Anchored (f : Face) : Prop := f.interface = none → f.isLocal = true

theorem Face.Anchored.congr {f g : Face} (h : f.Anchored) (hi : g.interface = f.interface)
    (ha : g.address = f.address) : g.Anchored := by
  intro hnone
  rw [hi] at hnone
  rw [isLocal, ha]
  exact h hnone

/-- Outboxes and marks do not matter. -/
theorem Face.Anchored.of_unmarked {f g : Face} (h : f.Anchored) (hg : g.unmarked = f.unmarked) :
    g.Anchored := h.congr (congrArg Face.interface hg :) (congrArg Face.address hg :)

namespace Relay

/-- The arena of the contents is well formed, and every face leads somewhere. -/
structure Sound (r : Relay) : Prop where
  contents : r.contents.slots.WellFormed
  anchored : ∀ key f, r.face? key = some f → f.Anchored

namespace Sound

variable {r s : Relay}

/-! ## Changes of one part -/

/-- Faces may go, and those that stay may change in all but their places. -/
theorem of_placed (h : r.Sound) (hc : s.contents.slots.WellFormed) (hf : Placed r s) : s.Sound := by
  refine ⟨hc, fun key f hface => ?_⟩
  obtain ⟨old, hold, hinterface, haddress⟩ := hf key f hface
  exact (h.anchored key old hold).congr hinterface haddress

theorem of_tables (h : r.Sound) (ht : s.tables = r.tables) : s.Sound := by
  refine h.of_placed ?_ (.of_samePlaces (.of_sameFaces (.of_tables ht)))
  rw [contents_of_tables ht]
  exact h.contents

theorem insertFace (h : r.Sound) {f : Face} (hf : f.Anchored) :
    ({ r with faces := (r.faces.insert f).2 } : Relay).Sound := by
  refine ⟨h.contents, fun key face hface => ?_⟩
  rcases Slots.get?_of_get?_insert hface with rfl | hold
  · exact hf
  · exact h.anchored key face hold

theorem removeFace (h : r.Sound) (key : FaceKey) : (r.removeFace key).2.Sound := by
  refine h.of_placed ?_ (.removeFace r key)
  unfold Relay.removeFace
  split
  · exact h.contents
  · exact h.contents

/-! ## Interests and contents -/

theorem answerFromStore (h : r.Sound) (origin : FaceKey) (interest : Packet) (key : ContentKey) :
    (r.answerFromStore origin interest key).2.Sound := by
  have htouched : ({ r with contents := r.contents.touch key r.now } : Relay).Sound :=
    ⟨Slots.wellFormed_modify h.contents key _, h.anchored⟩
  unfold Relay.answerFromStore
  dsimp only
  split
  · exact htouched
  · exact htouched.of_tables ((tables_serve _ _ _).trans (tables_of_still (log_still _ _ _)))

theorem note (h : r.Sound) (deed : Deed) : (r.note deed).Sound := ⟨h.contents, h.anchored⟩

theorem propagate (h : r.Sound) (key : InterestKey) : (r.propagate key).2.Sound := by
  have hattempted : ({ r with pending := r.attempted key } : Relay).Sound :=
    ⟨h.contents, h.anchored⟩
  exact hattempted.of_tables (tables_propagate r key)

theorem handleInterest (h : r.Sound) (origin : FaceKey) (interest : Packet) :
    (r.handleInterest origin interest).2.Sound := by
  have hpending : ∀ {s : Relay} (p : PendingTable), s.Sound →
      ({ s with pending := p } : Relay).Sound := fun _ hs => ⟨hs.contents, hs.anchored⟩
  have hrecorded : (r.recordNonce interest).2.Sound := by
    unfold recordNonce
    split <;> exact ⟨h.contents, h.anchored⟩
  unfold Relay.handleInterest
  split
  · rename_i s hs
    rw [hs] at hrecorded
    exact ⟨hrecorded.contents, hrecorded.anchored⟩
  · rename_i s hs
    rw [hs] at hrecorded
    split
    · exact hrecorded.answerFromStore origin interest _
    · split
      · rename_i key _
        have hjoined := hpending (s.pending.modify key fun e => e.addWaiter origin s.now) hrecorded
        unfold joinPending
        dsimp only
        split
        · exact hjoined.propagate key
        · exact hjoined
      · have hstarted := hpending (s.pending.insert (.fresh interest origin s.now)).2 hrecorded
        unfold startPending
        dsimp only
        split
        · exact (hstarted.note _).propagate _
        · exact ⟨hstarted.contents, hstarted.anchored⟩

theorem store (h : r.Sound) (content : Packet) (flags : ContentFlags) :
    (r.store content flags).2.Sound := by
  have hstored : ({ r with contents := (r.contents.insert content flags r.now).2 } : Relay).Sound :=
    ⟨ContentStore.wellFormed_insert h.contents content flags r.now, h.anchored⟩
  rw [store_snd]
  exact hstored.of_tables (tables_logAll _ _)

theorem servePending (h : r.Sound) (content : Packet) : (r.servePending content).2.Sound := by
  have hremoved : ({ r with pending := r.pending.removeEach (r.satisfied content) } : Relay).Sound :=
    ⟨h.contents, h.anchored⟩
  exact hremoved.of_tables (tables_servePending r content)

theorem handleContent (h : r.Sound) (origin : FaceKey) (content : Packet) :
    (r.handleContent origin content).2.Sound := by
  have hserved := h.servePending content
  unfold Relay.handleContent
  split
  · exact ⟨h.contents, h.anchored⟩
  · split
    · rename_i s hs
      rw [hs] at hserved
      exact ⟨hserved.contents, hserved.anchored⟩
    · rename_i n s _ hs
      rw [hs] at hserved
      split
      · exact hserved.store content {}
      · exact hserved

/-! ## Ageing and timers -/

theorem ageContents (h : r.Sound) : r.ageContents.Sound := by
  have hexpired : ({ r with contents := (r.contents.expire r.isExpiredContent).2 } : Relay).Sound :=
    ⟨Slots.wellFormed_removeWhere h.contents _, h.anchored⟩
  have hlogged := hexpired.of_tables
    (tables_logAll _ ((r.contents.expire r.isExpiredContent).1.map timedOutContent))
  exact ⟨Slots.wellFormed_mapEntries hlogged.contents _, hlogged.anchored⟩

theorem ageInterests (h : r.Sound) : r.ageInterests.Sound := by
  have hretransmit : ∀ {s : Relay} (key : InterestKey), s.Sound → (s.retransmit key).Sound := by
    intro s key hs
    have hsent := hs.propagate key
    rcases retransmit_cases s key with heq | heq <;> rw [heq]
    · exact hsent
    · exact ⟨hsent.contents, hsent.anchored⟩
  have hexpired : ({ r with pending := (r.pending.expire r.isExpiredInterest).2 } : Relay).Sound :=
    ⟨h.contents, h.anchored⟩
  exact List.foldlRecOn (motive := Sound) _ retransmit
    (hexpired.of_tables (tables_logAll _ _)) fun _ hs key _ => hretransmit key hs

theorem armAgeing (h : r.Sound) : r.armAgeing.2.Sound := by
  obtain ⟨timer, htables⟩ := tables_armAgeing r
  have hset : ({ r with ageingTimer := timer } : Relay).Sound := ⟨h.contents, h.anchored⟩
  exact hset.of_tables htables

theorem stop (h : r.Sound) : r.stop.Sound := by
  have hstopped : ({ r with ageingTimer := none } : Relay).Sound := ⟨h.contents, h.anchored⟩
  exact hstopped.of_tables (tables_stop r)

/-! ## Runs -/

/-- Every move keeps a relay sound. -/
theorem move (h : r.Sound) (hm : Move r s) : s.Sound := by
  cases hm with
  | interest _ _ => exact h.handleInterest _ _
  | content _ _ => exact h.handleContent _ _
  | @publish _ _ packet _ _ hs =>
    have hstored := h.store packet { pinned := true }
    rw [hs] at hstored
    exact hstored.servePending packet
  | @refuse _ _ packet _ _ hs =>
    have hstored := h.store packet { pinned := true }
    rw [hs] at hstored
    exact hstored
  | removeContent => exact ⟨Slots.wellFormed_removeWhere h.contents _, h.anchored⟩
  | fragment | flagFace | hear => exact h.of_placed h.contents (.modifyFace r _ fun _ => rfl)
  | newFace => exact h.insertFace fun hnone => by cases hnone
  | newApplicationFace =>
    have hnew := h.insertFace (f := .fresh none .application { pinned := true } 0 r.now) fun _ => rfl
    exact ⟨hnew.contents, hnew.anchored⟩
  | removeFace => exact h.removeFace _
  | ageContents => exact h.ageContents
  | ageInterests => exact h.ageInterests
  | clearToSend => exact h.of_tables (tables_of_still (clearToSend_still r _))
  | armAgeing => exact h.armAgeing
  | stop => exact h.stop
  | log | setCacheLimit | newInterface | pace | newRoute | removeRoute | nextNonce | disarm | clock
    | expire => exact ⟨h.contents, h.anchored⟩

end Sound

theorem sound_withLimits (host : Host) (c : Config) : (withLimits host c).Sound where
  contents := Slots.wellFormed_empty
  anchored := by simp [withLimits, face?]

theorem Visited.sound {r : Relay} (h : Visited r) : r.Sound :=
  h.keeps (fun _ _ _ _ => sound_withLimits _ _) fun _ hr hm => hr.move hm

end Relay

end NameRelay
