-- SUMMARY: What transmission leaves alone: everything but outboxes, rings and timers.
import NameRelay.Proofs.Relay.Unnoticed

/-!
# Transmission stands apart

Queueing a packet, releasing it and giving its units away touches the outboxes of faces, the rings
and timers of interfaces, and what the host was handed for transmission. `Relay.still` forgets all
of that. Each operation of transmission leaves the still relay as it was, so tables, flags, history
and upcalls are the same before and after.
-/

namespace NameRelay

/-! ## The still relay -/

/-- Whether an effect goes up to the local application. -/
def Effect.isUpcall : Effect → Bool
  | .deliver _ _ _ => true
  | .tap _ _ => true
  | _ => false

/-- Whether an effect is a record. -/
def Effect.isRecord : Effect → Bool
  | .log _ => true
  | _ => false

/-- The face without its outbox. -/
def Face.atRest (f : Face) : Face :=
  { f with queue := [], inFlight := none, fragmenter := .ofMtu 0 }

/-- The interface without its ring and its timer. -/
def Interface.atRest (i : Interface) : Interface := { i with queue := .empty, timer := none }

/-- The host without its timers, and with nothing transmitted or recorded. -/
def Host.atRest (h : Host) : Host :=
  { h with requested := 0, granted := 0, armed := [], effects := h.effects.filter Effect.isUpcall }

namespace Relay

/-- The relay as transmission cannot change it. -/
def still (r : Relay) : Relay :=
  { r with
    host := r.host.atRest
    faces := r.faces.mapEntries Face.atRest
    interfaces := r.interfaces.map Interface.atRest }

theorem still_ext {r s : Relay} (hhost : r.host.atRest = s.host.atRest)
    (hfaces : r.faces.mapEntries Face.atRest = s.faces.mapEntries Face.atRest)
    (hinterfaces : r.interfaces.map Interface.atRest = s.interfaces.map Interface.atRest)
    (hrest : { r with host := s.host, faces := s.faces, interfaces := s.interfaces } = s) :
    r.still = s.still := by
  rw [← hrest] at hhost hfaces hinterfaces ⊢
  simp only [still, hhost, hfaces, hinterfaces]

/-! ## Effects and single entries -/

theorem emit_still (r : Relay) {e : Effect} (h : e.isUpcall = false) :
    (r.emit e).still = r.still := by
  simp [still, emit, Host.atRest, Host.emit, List.filter_append, h]

@[simp] theorem log_still (r : Relay) (level : LogLevel) (text : String) :
    (r.log level text).still = r.still := emit_still r rfl

@[simp] theorem logAll_still (r : Relay) (records : List LogRecord) :
    (r.logAll records).still = r.still := by
  induction records generalizing r with
  | nil => rfl
  | cons record rest ih =>
    rw [logAll, List.foldl_cons]
    exact (ih _).trans (emit_still r rfl)

theorem setTimer_still (r : Relay) (delay : Nat) (event : TimerEvent) :
    (r.setTimer delay event).2.still = r.still := by
  simp only [setTimer, Host.setTimer]
  split <;> simp [still, Host.atRest, Host.emit, List.filter_append, Effect.isUpcall]

theorem cancelTimer_still (r : Relay) (handle : Nat) :
    (r.cancelTimer handle).still = r.still := by
  simp [still, cancelTimer, Host.cancelTimer, Host.atRest, Host.emit, List.filter_append,
    Effect.isUpcall]

/-- Changing the outbox of a face is not seen in the still relay. -/
theorem modifyFace_still (r : Relay) (key : FaceKey) (g : Face → Face)
    (h : ∀ f, r.face? key = some f → (g f).atRest = f.atRest) :
    (r.modifyFace key g).still = r.still :=
  still_ext rfl (Slots.mapEntries_modify h) rfl rfl

theorem map_modify_of_eq {α β : Type} (l : List α) (i : Nat) (g : α → α) (f : α → β)
    (h : ∀ a, f (g a) = f a) : (l.modify i g).map f = l.map f := by
  apply List.ext_getElem?
  intro j
  rw [List.getElem?_map, List.getElem?_modify, List.getElem?_map]
  split
  · cases l[j]? <;> simp [h]
  · simp

theorem map_set_of_eq {α β : Type} {l : List α} {i : Nat} {a b : α} (f : α → β)
    (ha : l[i]? = some a) (h : f b = f a) : (l.set i b).map f = l.map f := by
  obtain ⟨hi, rfl⟩ := List.getElem?_eq_some_iff.1 ha
  rw [List.map_set, h, ← List.map_set, List.set_getElem_self]

theorem modifyInterface_still (r : Relay) (index : Nat) (g : Interface → Interface)
    (h : ∀ i, (g i).atRest = i.atRest) : (r.modifyInterface index g).still = r.still :=
  still_ext rfl rfl (map_modify_of_eq _ _ _ _ h) rfl

end Relay

/-! ## Releasing and settling -/

namespace Face

theorem releaseFrom_atRest (key : FaceKey) (index : Nat) (f : Face)
    (ring : Ring Transmission maxQueueLength) (queue : List QueuedPacket) :
    (releaseFrom key index f ring queue).face.atRest = f.atRest := by
  induction queue generalizing f ring with
  | nil => rfl
  | cons next rest ih =>
    unfold releaseFrom
    split
    · exact (ih _ _).trans rfl
    · dsimp only
      split
      · rfl
      · exact (ih _ _).trans rfl

theorem release_atRest (key : FaceKey) (index : Nat) (f : Face)
    (ring : Ring Transmission maxQueueLength) :
    (f.release key index ring).face.atRest = f.atRest := by
  unfold release
  split
  · rfl
  · exact releaseFrom_atRest key index f ring f.queue

theorem settle_atRest (f : Face) : f.settle.atRest = f.atRest := by
  unfold settle
  split
  · split <;> rfl
  · rfl

end Face

namespace Relay

theorem release_still (r : Relay) (key : FaceKey) : (r.release key).2.still = r.still := by
  unfold release
  split
  · rfl
  · rename_i face hface
    split
    · rfl
    · rename_i index _
      split
      · rfl
      · rename_i interface hinterface
        refine still_ext ?_ ?_ ?_ rfl
        · exact congrArg Relay.host
            (logAll_still r (face.release key index interface.queue).records)
        · apply Slots.mapEntries_modify
          intro f hf
          cases hface.symm.trans hf
          exact Face.release_atRest key index face interface.queue
        · exact map_set_of_eq _ hinterface rfl

theorem settle_still (r : Relay) (key : FaceKey) : (r.settle key).still = r.still := by
  unfold settle
  split
  · rfl
  · rename_i face hface
    have hsettled : (r.modifyFace key fun _ => face.settle).still = r.still := by
      apply modifyFace_still
      intro f hf
      cases hface.symm.trans hf
      exact Face.settle_atRest face
    dsimp only
    split
    · exact (release_still _ key).trans hsettled
    · exact hsettled

/-! ## Giving units away -/

theorem sendNext_still {r s : Relay} {index : Nat} (h : r.sendNext index = some s) :
    s.still = r.still := by
  unfold sendNext at h
  split at h
  · cases h
  · rename_i interface hinterface
    split at h
    · cases h
    · rename_i unit queue _
      have hring : (({ r with
          interfaces := r.interfaces.set index { interface with queue } } : Relay).emit
            (.send index unit.destination unit.bytes)).still = r.still :=
        (emit_still _ rfl).trans (still_ext rfl rfl (map_set_of_eq _ hinterface rfl) rfl)
      dsimp only at h
      split at h
      · cases h
        exact (settle_still _ _).trans hring
      · cases h
        exact hring

theorem drain_still (r : Relay) (index : Nat) : (r.drain index).still = r.still := by
  fun_induction drain r index with
  | case1 r next h ih => exact ih.trans (sendNext_still h)
  | case2 => rfl

theorem kick_still (r : Relay) (index : Nat) : (r.kick index).still = r.still := by
  have hkicked := kick_cases r index
  generalize r.kick index = s at *
  cases hkicked with
  | absent | busy | empty | waits => rfl
  | drained => exact drain_still r index
  | @armed s delay handle hset =>
    have htimer := setTimer_still r delay (.clearToSend index)
    rw [hset] at htimer
    exact (modifyInterface_still s index (fun i => { i with timer := some handle })
      fun _ => rfl).trans htimer
  | @refused s delay hset text =>
    have htimer := setTimer_still r delay (.clearToSend index)
    rw [hset] at htimer
    exact (drain_still _ index).trans ((log_still s _ _).trans htimer)

theorem clearToSend_still (r : Relay) (index : Nat) : (r.clearToSend index).still = r.still := by
  have hdisarmed : (r.modifyInterface index fun i => { i with timer := none }).still = r.still :=
    modifyInterface_still r index (fun i => { i with timer := none }) fun _ => rfl
  unfold clearToSend
  refine (kick_still _ index).trans ?_
  cases hnext : (r.modifyInterface index fun i => { i with timer := none }).sendNext index with
  | none => exact hdisarmed
  | some s => exact (sendNext_still hnext).trans hdisarmed

/-- Queueing a packet changes nothing but outboxes, rings and timers, whatever comes of it. -/
theorem enqueue_still (r : Relay) (key : FaceKey) (suite : Suite) (bytes : Bytes) :
    (r.enqueue key suite bytes).2.still = r.still := by
  unfold enqueue
  split
  · rfl
  · split
    · rfl
    · rename_i index _
      split
      · exact log_still r _ _
      · have hqueued : (r.modifyFace key fun f =>
            { f with queue := f.queue ++ [⟨suite, bytes⟩] }).still = r.still :=
          modifyFace_still r key _ fun _ _ => rfl
        have hreleased := (release_still _ key).trans hqueued
        dsimp only
        split
        · rename_i s hrelease
          rw [hrelease] at hreleased
          exact (kick_still s index).trans hreleased
        · rename_i s hrelease
          rw [hrelease] at hreleased
          exact hreleased

/-! ## What the still relay shows -/

section

variable {r s : Relay}

theorem pending_of_still (h : s.still = r.still) : s.pending = r.pending :=
  (congrArg Relay.pending h :)

theorem interfaces_of_still (h : s.still = r.still) :
    s.interfaces.map Interface.atRest = r.interfaces.map Interface.atRest :=
  (congrArg Relay.interfaces h :)

theorem contents_of_still (h : s.still = r.still) : s.contents = r.contents :=
  (congrArg Relay.contents h :)

theorem history_of_still (h : s.still = r.still) : s.history = r.history :=
  (congrArg Relay.history h :)

theorem digest_of_still (h : s.still = r.still) : s.host.digest = r.host.digest :=
  (congrArg (fun r : Relay => r.host.digest) h :)

theorem upcalls_of_still (h : s.still = r.still) :
    s.host.effects.filter Effect.isUpcall = r.host.effects.filter Effect.isUpcall :=
  (congrArg (fun r : Relay => r.host.effects) h :)

theorem faces_of_still (h : s.still = r.still) :
    s.faces.mapEntries Face.atRest = r.faces.mapEntries Face.atRest :=
  (congrArg Relay.faces h :)

end

end Relay

end NameRelay
