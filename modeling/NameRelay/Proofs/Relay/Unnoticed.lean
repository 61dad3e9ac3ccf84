-- SUMMARY: Changes of a relay that sending does not notice.
import NameRelay.Proofs.Table.Slots
import NameRelay.Relay.Forward

/-!
# Changes that sending does not notice

Sending looks at outboxes and rings. It reads neither the flags of faces nor the tables nor what the
host has seen so far, and whether an interface is sending already it asks only before it begins. A
change of these that is made before a packet is sent might as well be made afterwards.
`Relay.Unnoticed` says what such a change may do, and each operation is shown once to give the same
with and without it.

The first use of this is `Relay.flush_eq`: an interface that is not sending is drained by a flush,
and nothing else comes of it. So `Relay.kick_cases` can say what starting an interface does without a
word about flushing.
-/

namespace NameRelay

/-! ## Faces with other flags -/

/-- The face with other flags. -/
def Face.recast (g : FaceFlags → FaceFlags) (f : Face) : Face := { f with flags := g f.flags }

/-- The release with other flags at its face. -/
def Release.recast (g : FaceFlags → FaceFlags) (out : Release) : Release :=
  { out with face := out.face.recast g }

namespace Face

theorem releaseFrom_recast (g : FaceFlags → FaceFlags) (key : FaceKey) (index : Nat) (f : Face)
    (ring : Ring Transmission maxQueueLength) (queue : List QueuedPacket) :
    releaseFrom key index (f.recast g) ring queue =
      (releaseFrom key index f ring queue).recast g := by
  induction queue generalizing f ring with
  | nil => rfl
  | cons next rest ih =>
    have hsame : (f.recast g).fragmenter = f.fragmenter := rfl
    unfold releaseFrom
    rw [hsame]
    split
    · rename_i e fragmenter _
      exact congrArg (Release.after _) (ih { f with fragmenter } ring)
    · rename_i fragments fragmenter _
      have hunits : (f.recast g).units key next.bytes fragments = f.units key next.bytes fragments :=
        rfl
      dsimp only
      rw [hunits]
      split
      · rfl
      · exact congrArg (Release.after _) (ih { f with fragmenter } _)

theorem release_recast (g : FaceFlags → FaceFlags) (key : FaceKey) (index : Nat) (f : Face)
    (ring : Ring Transmission maxQueueLength) :
    (f.recast g).release key index ring = (f.release key index ring).recast g := by
  have hflight : (f.recast g).inFlight = f.inFlight := rfl
  unfold release
  rw [hflight]
  split
  · rfl
  · exact releaseFrom_recast g key index f ring f.queue

theorem settle_recast (g : FaceFlags → FaceFlags) (f : Face) :
    (f.recast g).settle = f.settle.recast g := by
  have hflight : (f.recast g).inFlight = f.inFlight := rfl
  unfold settle
  rw [hflight]
  split
  · split <;> rfl
  · rfl

end Face

namespace Relay

/-- The records of a release might as well be left once everything else is done. -/
theorem logAll_withQueues (r : Relay) (faces : Slots Face) (interfaces : List Interface)
    (records : List LogRecord) :
    ({ r with faces, interfaces, host := (r.logAll records).host } : Relay) =
      ({ r with faces, interfaces } : Relay).logAll records := by
  induction records generalizing r with
  | nil => rfl
  | cons record records ih => exact ih (r.emit (.log record))

/-! ## Changes -/

/-- The change gives faces the flags `g` and interfaces what `h` says, but for their rings, and
    does not get in the way of effects. -/
structure Unnoticed (g : FaceFlags → FaceFlags) (h : Nat → Interface → Interface)
    (change : Relay → Relay) : Prop where
  queue : ∀ index i, (h index i).queue = i.queue
  setQueue : ∀ index i queue, h index { i with queue } = { h index i with queue }
  faces : ∀ r, (change r).faces = r.faces.mapEntries (Face.recast g)
  setFaces : ∀ r faces,
    change { r with faces } = { change r with faces := faces.mapEntries (Face.recast g) }
  interfaces : ∀ r, (change r).interfaces = r.interfaces.mapIdx h
  setInterfaces : ∀ r interfaces,
    change { r with interfaces } = { change r with interfaces := interfaces.mapIdx h }
  emit : ∀ r e, change (r.emit e) = (change r).emit e
  note : ∀ r d, change (r.note d) = (change r).note d
  setTimer : ∀ r delay event, (change r).setTimer delay event =
    ((r.setTimer delay event).1, change (r.setTimer delay event).2)

namespace Unnoticed

variable {g : FaceFlags → FaceFlags} {h : Nat → Interface → Interface} {change : Relay → Relay}

section

variable (hc : Unnoticed g h change) (r : Relay)
include hc

theorem face? (key : FaceKey) : (change r).face? key = (r.face? key).map (Face.recast g) := by
  rw [Relay.face?, hc.faces]
  exact Slots.get?_mapEntries r.faces _ key

theorem logAll (records : List LogRecord) :
    (change r).logAll records = change (r.logAll records) := by
  induction records generalizing r with
  | nil => rfl
  | cons record records ih =>
    exact (congrArg (Relay.logAll · records) (hc.emit r (.log record)).symm).trans (ih _)

theorem modifyFace (key : FaceKey) {f k : Face → Face}
    (hcomm : ∀ face, r.face? key = some face → f (face.recast g) = (k face).recast g) :
    (change r).modifyFace key f = change (r.modifyFace key k) := by
  have hmodify : (r.faces.mapEntries (Face.recast g)).modify key f =
      (r.faces.modify key k).mapEntries (Face.recast g) := Slots.modify_mapEntries hcomm
  refine Eq.trans ?_ (hc.setFaces r (r.faces.modify key k)).symm
  rw [Relay.modifyFace, hc.faces, hmodify]

theorem interface? (index : Nat) :
    (change r).interfaces[index]? = r.interfaces[index]?.map (h index) := by
  rw [hc.interfaces, List.getElem?_mapIdx]

/-- Another ring in the place of one. -/
theorem setRing (index : Nat) (i : Interface) (queue : Ring Transmission maxQueueLength) :
    ({ change r with interfaces :=
        (change r).interfaces.set index { h index i with queue } } : Relay) =
      change { r with interfaces := r.interfaces.set index { i with queue } } := by
  refine Eq.trans ?_ (hc.setInterfaces r _).symm
  rw [List.mapIdx_set, ← hc.interfaces r, hc.setQueue index i queue]

/-! ## Releasing and giving away -/

theorem release (key : FaceKey) :
    (change r).release key = ((r.release key).1, change (r.release key).2) := by
  unfold Relay.release
  rw [hc.face?]
  cases hface : r.face? key with
  | none => rfl
  | some face =>
    have hinterface : (face.recast g).interface = face.interface := rfl
    simp only [Option.map_some, hinterface, hc.interface?]
    split
    · rfl
    · rename_i index _
      cases hi : r.interfaces[index]? with
      | none => rfl
      | some interface =>
        simp only [Option.map_some, hc.queue, Face.release_recast]
        generalize face.release key index interface.queue = out
        rw [logAll_withQueues, logAll_withQueues]
        have hfaces := hc.modifyFace r key (f := fun _ => out.face.recast g) (k := fun _ => out.face)
          fun _ _ => rfl
        have hring := hc.setRing (r.modifyFace key fun _ => out.face) index interface out.ring
        rw [← hfaces] at hring
        exact congrArg (fun s : Relay => (out.released, s.logAll out.records)) hring |>.trans
          (congrArg _ (hc.logAll _ _))

theorem settle (key : FaceKey) : (change r).settle key = change (r.settle key) := by
  unfold Relay.settle
  rw [hc.face?]
  cases hface : r.face? key with
  | none => rfl
  | some face =>
    have hflight : (face.recast g).inFlight = face.inFlight := rfl
    have hsettled : (face.settle.recast g).inFlight = face.settle.inFlight := rfl
    have hmodified := hc.modifyFace r key
      (f := fun _ => face.settle.recast g) (k := fun _ => face.settle) fun _ _ => rfl
    simp only [Option.map_some, Face.settle_recast, hflight, hsettled, hmodified]
    split
    · rw [hc.release]
    · rfl

theorem sendNext (index : Nat) : (change r).sendNext index = (r.sendNext index).map change := by
  unfold Relay.sendNext
  rw [hc.interface?]
  cases hi : r.interfaces[index]? with
  | none => rfl
  | some interface =>
    simp only [Option.map_some, hc.queue]
    cases hpop : interface.queue.pop? with
    | none => rfl
    | some popped =>
      obtain ⟨unit, queue⟩ := popped
      have hring := congrArg (Relay.emit · (.send index unit.destination unit.bytes))
        (hc.setRing r index interface queue)
      simp only [← hc.emit] at hring
      simp only [hring]
      cases unit.face with
      | none => rfl
      | some key => exact congrArg some (hc.settle _ key)

theorem drain (index : Nat) : (change r).drain index = change (r.drain index) := by
  fun_induction Relay.drain r index with
  | case1 r next hnext ih =>
    rw [Relay.drain]
    split
    · rename_i s hs
      rw [hc.sendNext, hnext] at hs
      cases hs
      exact ih
    · rename_i hs
      rw [hc.sendNext, hnext] at hs
      cases hs
  | case2 r hnone =>
    rw [Relay.drain]
    split
    · rename_i s hs
      rw [hc.sendNext, hnone] at hs
      cases hs
    · rfl

end

theorem mapIdx_id {α : Type} (l : List α) : l.mapIdx (fun _ a => a) = l :=
  List.ext_getElem? fun j => by rw [List.getElem?_mapIdx, Option.map_id']

/-! ## Starting and queueing

Starting an interface looks at everything an interface has, so only changes that leave interfaces as
they are go unnoticed from here on. -/

section

variable (hc : Unnoticed g (fun _ i => i) change) (r : Relay)
include hc

theorem interfaces_eq : (change r).interfaces = r.interfaces := by
  rw [hc.interfaces, mapIdx_id]

theorem modifyInterface (index : Nat) (f : Interface → Interface) :
    (change r).modifyInterface index f = change (r.modifyInterface index f) := by
  refine Eq.trans ?_ (hc.setInterfaces r _).symm
  rw [mapIdx_id, Relay.modifyInterface, hc.interfaces_eq]

theorem flush (index : Nat) : (change r).flush index = change (r.flush index) := by
  have hnoted (draining : Bool) (r : Relay) :
      (change r).markDraining index draining = change (r.markDraining index draining) :=
    hc.modifyInterface r index _
  rw [Relay.flush, hnoted, hc.drain, hnoted]
  rfl

theorem kick (index : Nat) : (change r).kick index = change (r.kick index) := by
  unfold Relay.kick
  rw [hc.interfaces_eq]
  split
  · rfl
  · split
    · rfl
    · split
      · exact hc.flush r index
      · split
        · rfl
        · rename_i delay _ _
          rw [hc.setTimer]
          cases hset : r.setTimer delay (.clearToSend index) with
          | mk handle s =>
            cases handle with
            | some handle => exact hc.modifyInterface s index _
            | none =>
              exact (congrArg (Relay.flush · index) (hc.emit s _).symm).trans (hc.flush _ index)

theorem enqueue (key : FaceKey) (suite : Suite) (bytes : Bytes) :
    (change r).enqueue key suite bytes =
      ((r.enqueue key suite bytes).1, change (r.enqueue key suite bytes).2) := by
  unfold Relay.enqueue
  rw [hc.face?]
  cases hface : r.face? key with
  | none => rfl
  | some face =>
    have hinterface : (face.recast g).interface = face.interface := rfl
    have hqueued : (face.recast g).isQueued bytes = face.isQueued bytes := rfl
    have hmodified := hc.modifyFace r key
      (f := fun f => { f with queue := f.queue ++ [⟨suite, bytes⟩] })
      (k := fun f => { f with queue := f.queue ++ [⟨suite, bytes⟩] }) fun _ _ => rfl
    simp only [Option.map_some, hinterface, hqueued, hmodified]
    split
    · rfl
    · split
      · exact congrArg _ (hc.emit r _).symm
      · rw [hc.release]
        cases hreleased : (r.modifyFace key _).release key with
        | mk released s =>
          cases released with
          | true => exact congrArg _ (hc.kick s _)
          | false => rfl

/-- Serving a content comes to the same before and after the change. -/
theorem serve (key : FaceKey) (content : Packet) :
    (change r).serve key content =
      ((r.serve key content).1, change (r.serve key content).2) := by
  unfold Relay.serve
  rw [hc.face?]
  cases hface : r.face? key with
  | none => rfl
  | some face =>
    have hlocal : (face.recast g).isLocal = face.isLocal := rfl
    simp only [Option.map_some, hlocal, ← hc.note]
    split
    · split
      · exact congrArg _ (hc.emit _ _).symm
      · rfl
    · rw [hc.enqueue]

end

end Unnoticed

/-! ## Flushing -/

theorem modify_eq_mapIdx {α : Type} (l : List α) (index : Nat) (f : α → α) :
    l.modify index f = l.mapIdx fun j a => if j = index then f a else a := by
  refine List.ext_getElem? fun j => ?_
  rw [List.getElem?_modify, List.getElem?_mapIdx, Option.map_eq_map]
  simp only [eq_comm]

theorem unnoticed_markDraining (index : Nat) (draining : Bool) :
    Unnoticed id (fun j i => if j = index then { i with draining } else i)
      (markDraining · index draining) where
  queue j i := by split <;> rfl
  setQueue j i queue := by split <;> rfl
  faces r := (Slots.mapEntries_eq_self fun _ _ _ => rfl).symm
  setFaces r faces := by
    have hsame : faces.mapEntries (Face.recast id) = faces :=
      Slots.mapEntries_eq_self fun _ _ _ => rfl
    rw [hsame]
    rfl
  interfaces r := modify_eq_mapIdx r.interfaces index _
  setInterfaces r interfaces := by
    rw [← modify_eq_mapIdx]
    rfl
  emit r e := rfl
  note r d := rfl
  setTimer r delay event := rfl

/-- An interface that is noted to be as it is stays the same. -/
theorem markDraining_eq_self {r : Relay} {index : Nat} {i : Interface}
    (hi : r.interfaces[index]? = some i) : r.markDraining index i.draining = r := by
  have hsame : r.interfaces.modify index (fun j => { j with draining := i.draining }) =
      r.interfaces := by
    refine List.ext_getElem? fun j => ?_
    rw [List.getElem?_modify]
    by_cases hj : index = j
    · subst hj
      simp [hi]
    · simp [hj]
  rw [markDraining, modifyInterface, hsame]

/-- Of two notes the later one counts. -/
theorem markDraining_markDraining (r : Relay) (index : Nat) (first last : Bool) :
    (r.markDraining index first).markDraining index last = r.markDraining index last := by
  have hsame : (r.interfaces.modify index fun i => { i with draining := first }).modify index
      (fun i => { i with draining := last }) =
        r.interfaces.modify index fun i => { i with draining := last } :=
    List.modify_modify_eq ..
  simp only [markDraining, modifyInterface, hsame]

/-- A flush drains an interface that is not being drained, and leaves it so. -/
theorem flush_eq {r : Relay} {index : Nat} {i : Interface} (hi : r.interfaces[index]? = some i)
    (hcalm : i.draining = false) : r.flush index = r.drain index := by
  have hnoted (draining : Bool) (r : Relay) :
      (r.markDraining index draining).drain index = (r.drain index).markDraining index draining :=
    (unnoticed_markDraining index draining).drain r index
  calc r.flush index
    _ = (r.drain index).markDraining index false := by
        rw [flush, hnoted, markDraining_markDraining]
    _ = (r.markDraining index i.draining).drain index := by rw [hcalm, hnoted]
    _ = r.drain index := by rw [markDraining_eq_self hi]

/-! ## Starting an interface -/

/-- What becomes of a relay that starts to give the units of an interface away: nothing, with the
    reason for it, or it drains the interface, or a timer is set. -/
inductive Kicked (r : Relay) (index : Nat) : Relay → Prop where
  | absent (hi : r.interfaces[index]? = none) : Kicked r index r
  | busy {i : Interface} (hi : r.interfaces[index]? = some i) (h : i.draining = true) :
      Kicked r index r
  | empty {i : Interface} (hi : r.interfaces[index]? = some i) (h : i.queue.isEmpty = true) :
      Kicked r index r
  | waits {i : Interface} (hi : r.interfaces[index]? = some i) {handle : Nat}
      (h : i.timer = some handle) : Kicked r index r
  | drained : Kicked r index (r.drain index)
  | armed {s : Relay} {delay handle : Nat}
      (h : r.setTimer delay (.clearToSend index) = (some handle, s)) :
      Kicked r index (s.modifyInterface index fun i => { i with timer := some handle })
  | refused {s : Relay} {delay : Nat} (h : r.setTimer delay (.clearToSend index) = (none, s))
      (text : String) : Kicked r index ((s.log .warn text).drain index)

theorem kick_cases (r : Relay) (index : Nat) : Kicked r index (r.kick index) := by
  unfold kick
  split
  · exact .absent ‹_›
  · rename_i i hi
    split
    · rename_i hidle
      rcases Bool.or_eq_true_iff.1 hidle with hbusy | hempty
      · exact .busy hi hbusy
      · exact .empty hi hempty
    · rename_i hready
      have hcalm : i.draining = false := by
        rw [Bool.or_eq_true_iff, not_or] at hready
        exact eq_false_of_ne_true hready.1
      split
      · rw [flush_eq hi hcalm]
        exact .drained
      · rename_i delay _
        split
        · rename_i hwaits
          exact .waits hi (Option.some_get hwaits).symm
        · split
          · rename_i handle s hset
            exact .armed hset
          · rename_i s hset
            have hsame : (s.log .warn s!"No timer for interface {index}, sending unpaced").interfaces =
                r.interfaces := congrArg (·.2.interfaces) hset.symm
            rw [flush_eq (hsame ▸ hi) hcalm]
            exact .refused hset _

/-- An interface that is not paced and has units to give away is drained. -/
theorem kick_of_unpaced {r : Relay} {index : Nat} {i : Interface}
    (hi : r.interfaces[index]? = some i) (hcalm : i.draining = false)
    (hwaits : i.queue.isEmpty = false) (hpacing : i.pacing = none) :
    r.kick index = r.drain index := by
  simp only [kick, hi, hcalm, hwaits, hpacing, Bool.or_self, Bool.false_eq_true, if_false,
    flush_eq hi hcalm]

end Relay

end NameRelay
