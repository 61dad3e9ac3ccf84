-- SUMMARY: Whoever waits for content is a face and waits once, and somebody waits.
import Mathlib.Data.List.Nodup
import NameRelay.Proofs.Relay.Standing
import NameRelay.Relay.Lifecycle

/-!
# Consistency of the tables

The pending table refers to faces. A relay is consistent if every face that waits exists and waits
with an entry only once, and no entry is without a waiter. Faces that ask again, and faces that are
torn down, could break this: a face that waits already does not come to wait again, and one that goes
is taken out of every entry. Each operation keeps consistency; that a run does follows from there.
-/

namespace NameRelay

/-- A face that waits already does not come to wait again. -/
theorem PendingInterest.faces_addWaiter (e : PendingInterest) (face : FaceKey) (now : Instant) :
    (e.addWaiter face now).faces = if face ∈ e.faces then e.faces else e.faces ++ [face] := by
  have hwaits : e.isWaiting face = true ↔ face ∈ e.faces := by simp [isWaiting, faces]
  unfold addWaiter
  simp only [hwaits]
  split
  · simp only [faces, List.map_map]
    refine List.map_congr_left fun w _ => ?_
    rw [Function.comp_apply]
    split <;> rfl
  · simp [faces]

namespace Relay

/-- The arenas are well formed, every entry has a waiter, and every waiter is a face and waits
    once. -/
structure Consistent (r : Relay) : Prop where
  faces : r.faces.WellFormed
  pending : r.pending.slots.WellFormed
  waited : ∀ key e, r.pending.get? key = some e → e.waiters ≠ []
  known : ∀ key e, r.pending.get? key = some e → ∀ face ∈ e.faces, r.faces.contains face = true
  once : ∀ key e, r.pending.get? key = some e → e.faces.Nodup

namespace Consistent

variable {r s : Relay}

/-! ## Changes of one table -/

/-- Consistency is a matter of faces and pending interests alone. -/
theorem congr (h : r.Consistent) (hf : s.faces = r.faces) (hp : s.pending = r.pending) :
    s.Consistent := by
  refine ⟨?_, ?_, ?_, ?_, ?_⟩
  · rw [hf]
    exact h.faces
  · rw [hp]
    exact h.pending
  · rw [hp]
    exact h.waited
  · rw [hp, hf]
    exact h.known
  · rw [hp]
    exact h.once

theorem note (h : r.Consistent) (deed : Deed) : (r.note deed).Consistent := h.congr rfl rfl

/-- Consistency can be read off the tables. -/
theorem of_tables (h : r.Consistent) (ht : s.tables = r.tables) : s.Consistent := by
  refine ⟨?_, ?_, ?_, ?_, ?_⟩
  · apply Slots.wellFormed_of_mapEntries (f := Face.unmarked)
    rw [faces_of_tables ht]
    exact Slots.wellFormed_mapEntries h.faces _
  · rw [pending_of_tables ht]
    exact h.pending
  · rw [pending_of_tables ht]
    exact h.waited
  · rw [pending_of_tables ht]
    intro key e he face hface
    rw [contains_of_tables ht]
    exact h.known key e he face hface
  · rw [pending_of_tables ht]
    exact h.once

/-- Faces may be added as long as none goes. -/
theorem of_faces (h : r.Consistent) (hp : s.pending = r.pending) (hf : s.faces.WellFormed)
    (hkept : ∀ face, r.faces.contains face = true → s.faces.contains face = true) :
    s.Consistent := by
  refine ⟨hf, ?_, ?_, ?_, ?_⟩
  · rw [hp]
    exact h.pending
  · rw [hp]
    exact h.waited
  · rw [hp]
    intro key e he face hface
    exact hkept face (h.known key e he face hface)
  · rw [hp]
    exact h.once

/-- Entries may go, and those that stay may change in all but their waiters. -/
theorem of_pending (h : r.Consistent) (hf : s.faces = r.faces) (hp : s.pending.slots.WellFormed)
    (hkept : ∀ key e, s.pending.get? key = some e →
      ∃ d, r.pending.get? key = some d ∧ e.waiters = d.waiters) : s.Consistent := by
  refine ⟨?_, hp, ?_, ?_, ?_⟩
  · rw [hf]
    exact h.faces
  · intro key e he
    obtain ⟨d, hd, hsame⟩ := hkept key e he
    rw [hsame]
    exact h.waited key d hd
  · intro key e he face hface
    obtain ⟨d, hd, hsame⟩ := hkept key e he
    rw [hf]
    refine h.known key d hd face ?_
    rw [PendingInterest.faces, ← hsame]
    exact hface
  · intro key e he
    obtain ⟨d, hd, hsame⟩ := hkept key e he
    rw [PendingInterest.faces, hsame]
    exact h.once key d hd

/-- Entries may change in all but their waiters. -/
theorem modifyPending (h : r.Consistent) (key : InterestKey)
    (f : PendingInterest → PendingInterest) (hf : ∀ e, (f e).waiters = e.waiters) :
    ({ r with pending := r.pending.modify key f } : Relay).Consistent := by
  refine h.of_pending rfl (Slots.wellFormed_modify h.pending key f) ?_
  intro k e he
  obtain ⟨d, hd, rfl | ⟨-, rfl⟩⟩ := Slots.get?_of_get?_modify he
  · exact ⟨e, hd, rfl⟩
  · exact ⟨d, hd, hf d⟩

/-- A face of the relay may wait with an entry. -/
theorem addWaiter (h : r.Consistent) {origin : FaceKey} (ho : r.faces.contains origin = true)
    (key : InterestKey) (now : Instant) :
    ({ r with pending := r.pending.modify key fun e => e.addWaiter origin now } :
      Relay).Consistent := by
  refine ⟨h.faces, Slots.wellFormed_modify h.pending _ _, ?_, ?_, ?_⟩
  · intro k e he
    obtain ⟨d, hd, rfl | ⟨-, rfl⟩⟩ := Slots.get?_of_get?_modify he
    · exact h.waited k e hd
    · have hd' := h.waited k d hd
      unfold PendingInterest.addWaiter
      split <;> simp [hd']
  · intro k e he face hface
    obtain ⟨d, hd, rfl | ⟨-, rfl⟩⟩ := Slots.get?_of_get?_modify he
    · exact h.known k e hd face hface
    · rw [PendingInterest.faces_addWaiter] at hface
      split at hface
      · exact h.known k d hd face hface
      · rcases List.mem_append.1 hface with hold | hnew
        · exact h.known k d hd face hold
        · rw [List.mem_singleton.1 hnew]
          exact ho
  · intro k e he
    obtain ⟨d, hd, rfl | ⟨-, rfl⟩⟩ := Slots.get?_of_get?_modify he
    · exact h.once k e hd
    · rw [PendingInterest.faces_addWaiter]
      split
      · exact h.once k d hd
      · rename_i hnew
        rw [← List.concat_eq_append, List.nodup_concat]
        exact ⟨hnew, h.once k d hd⟩

/-- A face of the relay may wait with a new entry. -/
theorem insertPending (h : r.Consistent) {origin : FaceKey} (ho : r.faces.contains origin = true)
    (interest : Packet) (now : Instant) :
    ({ r with pending := (r.pending.insert (.fresh interest origin now)).2 } :
      Relay).Consistent := by
  refine ⟨h.faces, Slots.wellFormed_insert h.pending _, ?_, ?_, ?_⟩
  · intro k e he
    rcases Slots.get?_of_get?_insert he with rfl | hold
    · simp [PendingInterest.fresh]
    · exact h.waited k e hold
  · intro k e he face hface
    rcases Slots.get?_of_get?_insert he with rfl | hold
    · simp only [PendingInterest.fresh, PendingInterest.faces, List.map_cons, List.map_nil,
        List.mem_singleton] at hface
      rw [hface]
      exact ho
    · exact h.known k e hold face hface
  · intro k e he
    rcases Slots.get?_of_get?_insert he with rfl | hold
    · exact List.nodup_singleton origin
    · exact h.once k e hold

/-! ## Interests and contents -/

theorem servePending (h : r.Consistent) (content : Packet) :
    (r.servePending content).2.Consistent := by
  refine Consistent.of_tables ?_ (tables_servePending r content)
  refine h.of_pending rfl (PendingTable.wellFormed_removeEach h.pending _) ?_
  intro key e he
  have hget := PendingTable.get?_removeEach r.pending (r.satisfied content) key
  rw [he] at hget
  split at hget
  · cases hget
  · exact ⟨e, hget.symm, rfl⟩

theorem propagate (h : r.Consistent) (key : InterestKey) : (r.propagate key).2.Consistent :=
  Consistent.of_tables (h.modifyPending key (fun e => { e with lastAttempt := r.now }) fun _ => rfl)
    (tables_propagate r key)

theorem store (h : r.Consistent) (content : Packet) (flags : ContentFlags) :
    (r.store content flags).2.Consistent := by
  have hchanged : ∀ contents, ({ r with contents } : Relay).Consistent := fun _ => h.congr rfl rfl
  rw [store_snd]
  exact (hchanged _).of_tables (tables_logAll _ _)

theorem handleContent (h : r.Consistent) (origin : FaceKey) (content : Packet) :
    (r.handleContent origin content).2.Consistent := by
  unfold Relay.handleContent
  split
  · exact h.congr rfl rfl
  · have hserved := h.servePending content
    split
    · rename_i s hs
      rw [hs] at hserved
      exact hserved.congr rfl rfl
    · rename_i n s _ hs
      rw [hs] at hserved
      split
      · exact hserved.store content {}
      · exact hserved

theorem recordNonce (h : r.Consistent) (interest : Packet) :
    (r.recordNonce interest).2.Consistent := by
  unfold Relay.recordNonce
  split
  · exact h
  · exact h.congr rfl rfl

theorem answerFromStore (h : r.Consistent) (origin : FaceKey) (interest : Packet)
    (key : ContentKey) : (r.answerFromStore origin interest key).2.Consistent := by
  unfold Relay.answerFromStore
  dsimp only
  split
  · exact h.congr rfl rfl
  · refine Consistent.of_tables ?_ (tables_serve _ _ _)
    exact h.congr rfl rfl

theorem joinPending (h : r.Consistent) {origin : FaceKey} (ho : r.faces.contains origin = true)
    (key : InterestKey) : (r.joinPending origin key).Consistent := by
  have hjoined := h.addWaiter ho key r.now
  unfold Relay.joinPending
  dsimp only
  split
  · exact hjoined.propagate key
  · exact hjoined

theorem startPending (h : r.Consistent) {origin : FaceKey} (ho : r.faces.contains origin = true)
    (interest : Packet) : (r.startPending origin interest).Consistent := by
  have hstarted := h.insertPending ho interest r.now
  unfold Relay.startPending
  dsimp only
  split
  · exact (hstarted.note _).propagate _
  · exact hstarted.congr rfl rfl

end Consistent

/-! ## Packets do not change who is a face -/

/-- The faces are the same, apart from outboxes and marks. -/
def SameFaces (r s : Relay) : Prop :=
  s.faces.mapEntries Face.unmarked = r.faces.mapEntries Face.unmarked

theorem SameFaces.of_tables {r s : Relay} (h : s.tables = r.tables) : SameFaces r s :=
  faces_of_tables h

theorem SameFaces.contains {r s : Relay} (h : SameFaces r s) {key : FaceKey}
    (hkey : r.faces.contains key = true) : s.faces.contains key = true := by
  have hget := congrArg (fun f => (f.get? key).isSome) h
  simp only [Slots.get?_mapEntries, Option.isSome_map] at hget
  exact hget.trans hkey

theorem SameFaces.of_standing {r s : Relay} (h : s.standing = r.standing) : SameFaces r s :=
  faces_of_standing h

theorem Consistent.handleInterest {r : Relay} (h : r.Consistent) {origin : FaceKey}
    (ho : r.faces.contains origin = true) (interest : Packet) :
    (r.handleInterest origin interest).2.Consistent := by
  have hrecorded := h.recordNonce interest
  have hfaces := SameFaces.of_standing (standing_recordNonce r interest)
  unfold Relay.handleInterest
  split
  · rename_i s hs
    rw [hs] at hrecorded
    exact hrecorded.congr rfl rfl
  · rename_i s hs
    rw [hs] at hrecorded hfaces
    split
    · exact hrecorded.answerFromStore origin interest _
    · split
      · exact hrecorded.joinPending (hfaces.contains ho) _
      · exact hrecorded.startPending (hfaces.contains ho) interest

/-! ## Faces -/

theorem contains_modifyFace {r : Relay} {key face : FaceKey} (f : Face → Face)
    (h : r.faces.contains face = true) : (r.modifyFace key f).faces.contains face = true := by
  obtain ⟨a, ha⟩ := Slots.contains_iff.1 h
  have hget := Slots.get?_modify r.faces key f face
  rw [ha] at hget
  apply Slots.contains_iff.2
  split at hget
  · exact ⟨f a, hget⟩
  · exact ⟨a, hget⟩

/-- A change of faces that removes none keeps the relay consistent. -/
theorem Consistent.modifyFace {r : Relay} (h : r.Consistent) (key : FaceKey) (f : Face → Face) :
    (r.modifyFace key f).Consistent :=
  h.of_faces rfl (Slots.wellFormed_modify h.faces key f) fun _ => contains_modifyFace f

/-- A new face leaves the others. -/
theorem contains_insertFace {r : Relay} (h : r.Consistent) (f : Face) {face : FaceKey}
    (hface : r.faces.contains face = true) : (r.faces.insert f).2.contains face = true := by
  obtain ⟨a, ha⟩ := Slots.contains_iff.1 hface
  exact Slots.contains_iff.2 ⟨a, Slots.get?_insert_of_get? h.faces f ha⟩

theorem faces_removeFace (r : Relay) (key : FaceKey) :
    (r.removeFace key).2.faces = (r.faces.remove key).2 := by
  unfold removeFace
  split
  · rename_i hnone
    have hget : r.faces.get? key = none := by rw [← Slots.remove_fst, hnone]
    rw [Slots.remove, hget]
  · rename_i hremoved
    rw [hremoved]
    rfl

/-- A face that is torn down is gone, and no other is. -/
theorem face?_removeFace (r : Relay) (key k : FaceKey) :
    (r.removeFace key).2.face? k = if k = key then none else r.face? k := by
  rw [face?, faces_removeFace, Slots.get?_remove]
  rfl

namespace Consistent

variable {r : Relay}

theorem insertFace (h : r.Consistent) (f : Face) :
    ({ r with faces := (r.faces.insert f).2 } : Relay).Consistent :=
  h.of_faces rfl (Slots.wellFormed_insert h.faces f) fun _ => contains_insertFace h f

/-- Nobody waits for a face that was torn down, and no entry is left that only it waited for. -/
theorem removeFace (h : r.Consistent) (key : FaceKey) : (r.removeFace key).2.Consistent := by
  have hfaces := Slots.wellFormed_remove h.faces key
  have hget := Slots.get?_remove r.faces key
  unfold Relay.removeFace
  split
  · exact h
  · rename_i face faces hremoved
    rw [hremoved] at hfaces hget
    have hkept : ∀ k e, (r.pending.removeFace key).2.get? k = some e →
        ∃ d, r.pending.get? k = some d ∧ e = d.removeWaiter key ∧ e.waiters ≠ [] := by
      intro k e he
      have hdrained := Slots.get?_drain r.pending.slots (·.removeWaiter key) (·.waiters.isEmpty) k
      have he' : ((r.pending.slots.drain (·.removeWaiter key) (·.waiters.isEmpty)).2).get? k =
          some e := he
      rw [he', eq_comm, Option.filter_eq_some_iff, Option.map_eq_some_iff] at hdrained
      obtain ⟨⟨d, hd, rfl⟩, hne⟩ := hdrained
      exact ⟨d, hd, rfl, by simpa using hne⟩
    have hboth :
        ({ r with faces, pending := (r.pending.removeFace key).2 } : Relay).Consistent := by
      refine ⟨hfaces, Slots.wellFormed_drain h.pending (·.removeWaiter key) (·.waiters.isEmpty),
        ?_, ?_, ?_⟩
      · intro k e he
        obtain ⟨d, -, -, hne⟩ := hkept k e he
        exact hne
      · intro k e he waiter hwaiter
        obtain ⟨d, hd, rfl, -⟩ := hkept k e he
        obtain ⟨w, hw, rfl⟩ := List.mem_map.1 hwaiter
        obtain ⟨hmem, hother⟩ := List.mem_filter.1 hw
        have hne : w.face ≠ key := by simpa using hother
        have hold := h.known k d hd w.face (List.mem_map_of_mem hmem)
        obtain ⟨a, ha⟩ := Slots.contains_iff.1 hold
        exact Slots.contains_iff.2 ⟨a, (hget w.face).trans ((if_neg hne).trans ha)⟩
      · intro k e he
        obtain ⟨d, hd, rfl, -⟩ := hkept k e he
        exact (h.once k d hd).sublist (List.filter_sublist.map _)
    exact hboth.congr rfl rfl

/-! ## Ageing -/

theorem ageContents (h : r.Consistent) : r.ageContents.Consistent := by
  have hexpired : ∀ contents, ({ r with contents } : Relay).Consistent := fun _ => h.congr rfl rfl
  exact ((hexpired _).of_tables (tables_logAll _ _)).congr rfl rfl

theorem retransmit (h : r.Consistent) (key : InterestKey) : (r.retransmit key).Consistent := by
  have hsent := h.propagate key
  rcases retransmit_cases r key with heq | heq <;> rw [heq]
  · exact hsent
  · exact hsent.modifyPending key _ fun _ => rfl

theorem ageInterests (h : r.Consistent) : r.ageInterests.Consistent := by
  have hexpired : ∀ test, ({ r with pending := (r.pending.expire test).2 } : Relay).Consistent := by
    intro test
    refine h.of_pending rfl (Slots.wellFormed_removeWhere h.pending test) ?_
    intro key e he
    have hget : ((r.pending.slots.removeWhere test).2).get? key = some e := he
    rw [Slots.get?_removeWhere, Option.filter_eq_some_iff] at hget
    exact ⟨e, hget.1, rfl⟩
  exact List.foldlRecOn (motive := Consistent) _ Relay.retransmit
    ((hexpired _).of_tables (tables_logAll _ _)) fun _ hs key _ => hs.retransmit key

theorem armAgeing (h : r.Consistent) : r.armAgeing.2.Consistent := by
  obtain ⟨timer, htables⟩ := tables_armAgeing r
  have hset : ({ r with ageingTimer := timer } : Relay).Consistent := h.congr rfl rfl
  exact hset.of_tables htables

theorem stop (h : r.Consistent) : r.stop.Consistent := by
  have hstopped : ({ r with ageingTimer := none } : Relay).Consistent := h.congr rfl rfl
  exact hstopped.of_tables (tables_stop r)

end Consistent

theorem consistent_withLimits (host : Host) (c : Config) : (withLimits host c).Consistent where
  faces := Slots.wellFormed_empty
  pending := Slots.wellFormed_empty
  waited := by simp [withLimits, PendingTable.get?, PendingTable.empty]
  known := by simp [withLimits, PendingTable.get?, PendingTable.empty]
  once := by simp [withLimits, PendingTable.get?, PendingTable.empty]

/-- The relay is consistent and the key is one of its faces. -/
structure Knows (r : Relay) (key : FaceKey) : Prop where
  consistent : r.Consistent
  face : r.faces.contains key = true

end Relay

end NameRelay
