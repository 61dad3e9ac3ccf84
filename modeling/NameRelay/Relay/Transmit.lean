-- SUMMARY: Sending: packets wait at their face, units wait at their interface.
import NameRelay.Relay.Basic

/-!
# Transmission

Packets wait in two places. Every face keeps whole packets in order and releases one at a time, cut
into fragments if its link asks for it. Every interface keeps a bounded ring of units, packets or
fragments, that all its faces share. Once the last unit of a packet has left the ring, the face
releases its next packet.

An interface without pacing gives its units away at once. A paced interface gives one unit away for
each timer that goes off.
-/

namespace NameRelay

-- ---------------------------------------------------------------------------
-- Releasing a packet
-- ---------------------------------------------------------------------------

/-- What comes of a face's attempt to release a packet. -/
structure Release where
  face : Face
  ring : Ring Transmission maxQueueLength
  /-- Whether a packet was released. -/
  released : Bool
  records : List LogRecord

/-- The release with records in front of its own. -/
def Release.after (records : List LogRecord) (r : Release) : Release :=
  { r with records := records ++ r.records }

namespace Face

/-- The units of a packet: its fragments, or the packet itself. -/
def units (f : Face) (key : FaceKey) (whole : Bytes) (fragments : Option (List Bytes)) :
    List Transmission :=
  (fragments.getD [whole]).map fun bytes => ⟨some key, f.address, bytes⟩

/-- Releases the first of the packets that can be cut and of which at least one unit finds room in
    the ring of interface `index`. The packets before it are dropped. -/
def releaseFrom (key : FaceKey) (index : Nat) (f : Face) (ring : Ring Transmission maxQueueLength) :
    List QueuedPacket → Release
  | [] => ⟨{ f with queue := [] }, ring, false, []⟩
  | next :: rest =>
    match f.fragmenter.fragment next.suite next.bytes with
    | (.error e, fragmenter) =>
      (releaseFrom key index { f with fragmenter } ring rest).after
        [⟨.warn, "Cannot fragment for " ++ f.address.text ++ ": " ++ e.message⟩]
    | (.ok fragments, fragmenter) =>
      let units := f.units key next.bytes fragments
      let (ring, refused) := ring.pushAll units
      let refusals := List.replicate refused ⟨.warn, "Dropping packet for " ++ f.address.text ++
        ": " ++ (RelayError.queueFull index).message⟩
      if refused < units.length then
        ⟨{ f with
            fragmenter
            queue := rest
            inFlight := some ⟨next.bytes, units.length - refused⟩ },
          ring, true, refusals⟩
      else
        (releaseFrom key index { f with fragmenter } ring rest).after refusals

/-- Releases the next packet, unless the one before it is still in flight. -/
def release (key : FaceKey) (index : Nat) (f : Face) (ring : Ring Transmission maxQueueLength) :
    Release :=
  if f.inFlight.isSome then ⟨f, ring, false, []⟩ else releaseFrom key index f ring f.queue

/-- Counts a unit of the packet in flight that has left. -/
def settle (f : Face) : Face :=
  match f.inFlight with
  | some p =>
    if p.remaining ≤ 1 then { f with inFlight := none }
    else { f with inFlight := some { p with remaining := p.remaining - 1 } }
  | none => f

theorem releaseFrom_queue_le (key : FaceKey) (index : Nat) (f : Face)
    (ring : Ring Transmission maxQueueLength) (queue : List QueuedPacket) :
    (releaseFrom key index f ring queue).face.queue.length ≤ queue.length - 1 := by
  induction queue generalizing f ring with
  | nil => simp [releaseFrom]
  | cons next rest ih =>
    unfold releaseFrom
    split
    · exact Nat.le_trans (ih _ _) (by simp)
    · dsimp only
      split
      · simp
      · exact Nat.le_trans (ih _ _) (by simp)

/-- A release takes a packet off the queue, or leaves queue and ring as they are. -/
theorem release_progress (key : FaceKey) (index : Nat) (f : Face)
    (ring : Ring Transmission maxQueueLength) :
    (f.release key index ring).face.queue.length < f.queue.length ∨
      (f.release key index ring).face.queue.length = f.queue.length ∧
        (f.release key index ring).ring = ring := by
  unfold release
  split
  · exact .inr ⟨rfl, rfl⟩
  · cases hq : f.queue with
    | nil => exact .inr ⟨rfl, rfl⟩
    | cons next rest =>
      have := releaseFrom_queue_le key index f ring (next :: rest)
      simp only [List.length_cons] at this ⊢
      omega

@[simp] theorem settle_queue (f : Face) : f.settle.queue = f.queue := by
  unfold settle
  split
  · split <;> rfl
  · rfl

end Face

namespace Relay

/-- Lets a face release a packet; the flag says whether it did. -/
def release (r : Relay) (key : FaceKey) : Bool × Relay :=
  match r.face? key with
  | none => (false, r)
  | some face =>
    match face.interface with
    | none => (false, r)
    | some index =>
      match r.interfaces[index]? with
      | none => (false, r)
      | some interface =>
        let out := face.release key index interface.queue
        (out.released, { r with
          faces := r.faces.modify key fun _ => out.face
          interfaces := r.interfaces.set index { interface with queue := out.ring }
          host := (r.logAll out.records).host })

-- ---------------------------------------------------------------------------
-- Giving units away
-- ---------------------------------------------------------------------------

/-- Counts a unit of a face that has left, and lets the face go on if it was the last of its
    packet. -/
def settle (r : Relay) (key : FaceKey) : Relay :=
  match r.face? key with
  | none => r
  | some face =>
    let settled := face.settle
    let r := r.modifyFace key fun _ => settled
    if face.inFlight.isSome && settled.inFlight.isNone then (r.release key).2 else r

/-- Gives the next unit of an interface away; none if it has none. -/
def sendNext (r : Relay) (index : Nat) : Option Relay :=
  match r.interfaces[index]? with
  | none => none
  | some interface =>
    match interface.queue.pop? with
    | none => none
    | some (unit, queue) =>
      let r := { r with interfaces := r.interfaces.set index { interface with queue } }
      let r := r.emit (.send index unit.destination unit.bytes)
      match unit.face with
      | some key => some (r.settle key)
      | none => some r

/-- The number of packets that wait at faces. -/
def backlog (r : Relay) : Nat := r.faces.total fun f => f.queue.length

/-- The number of units that wait at an interface. -/
def queueLength (r : Relay) (index : Nat) : Nat :=
  (r.interfaces[index]?.map fun i => i.queue.length).getD 0

/-- A release takes a packet off the backlog, or changes neither it nor any ring. -/
theorem release_progress (r : Relay) (key : FaceKey) (index : Nat) :
    (r.release key).2.backlog < r.backlog ∨
      (r.release key).2.backlog = r.backlog ∧
        (r.release key).2.queueLength index = r.queueLength index := by
  unfold release
  split
  · exact .inr ⟨rfl, rfl⟩
  · rename_i face hface
    split
    · exact .inr ⟨rfl, rfl⟩
    · rename_i at_ _
      split
      · exact .inr ⟨rfl, rfl⟩
      · rename_i interface hinterface
        have htotal := Slots.total_modify (fun _ => (face.release key at_ interface.queue).face)
          (fun f => f.queue.length) hface
        have hprogress := face.release_progress key at_ interface.queue
        simp only [backlog, queueLength] at htotal ⊢
        rcases hprogress with hlt | ⟨heq, hring⟩
        · exact .inl (by omega)
        · refine .inr ⟨by omega, ?_⟩
          rw [List.getElem?_set]
          split
          · rename_i hat
            subst hat
            split
            · simp [hinterface, hring]
            · rename_i hbound
              simp [List.getElem?_eq_none (Nat.le_of_not_lt hbound)]
          · rfl

/-- Settling a unit takes a packet off the backlog, or changes neither it nor any ring. -/
theorem settle_progress (r : Relay) (key : FaceKey) (index : Nat) :
    (r.settle key).backlog < r.backlog ∨
      (r.settle key).backlog = r.backlog ∧
        (r.settle key).queueLength index = r.queueLength index := by
  unfold settle
  split
  · exact .inr ⟨rfl, rfl⟩
  · rename_i face hface
    have htotal := Slots.total_modify (fun _ => face.settle) (fun f => f.queue.length) hface
    have hsame : (r.modifyFace key fun _ => face.settle).backlog = r.backlog := by
      simp only [backlog, modifyFace, Face.settle_queue] at htotal ⊢
      omega
    dsimp only
    split
    · have := release_progress (r.modifyFace key fun _ => face.settle) key index
      rw [hsame] at this
      exact this
    · exact .inr ⟨hsame, rfl⟩

/-- Giving a unit away takes a packet off the backlog, or leaves it and takes a unit off the
    ring. -/
theorem sendNext_progress {r s : Relay} {index : Nat} (h : r.sendNext index = some s) :
    s.backlog < r.backlog ∨
      s.backlog = r.backlog ∧ s.queueLength index < r.queueLength index := by
  unfold sendNext at h
  split at h
  · simp at h
  · rename_i interface hinterface
    split at h
    · simp at h
    · rename_i unit queue hpop
      have hlength := Ring.length_of_pop? hpop
      have hbound : index < r.interfaces.length := (List.getElem?_eq_some_iff.1 hinterface).1
      have hbefore : r.queueLength index = interface.queue.length := by
        simp [queueLength, hinterface]
      have hafter : ∀ host, queueLength { r with
          interfaces := r.interfaces.set index { interface with queue }, host } index =
            queue.length := by
        intro host
        simp [queueLength, hbound]
      dsimp only at h
      split at h
      · rename_i key _
        simp only [Option.some.injEq] at h
        subst h
        rcases settle_progress (emit { r with
            interfaces := r.interfaces.set index { interface with queue } }
              (.send index unit.destination unit.bytes)) key index with hlt | ⟨heq, hring⟩
        · exact .inl hlt
        · refine .inr ⟨heq, ?_⟩
          rw [hring, emit, hafter]
          omega
      · simp only [Option.some.injEq] at h
        subst h
        refine .inr ⟨rfl, ?_⟩
        rw [emit, hafter]
        omega

/-- Gives the units of an interface away until there are none left. -/
def drain (r : Relay) (index : Nat) : Relay :=
  match _h : r.sendNext index with
  | some next => drain next index
  | none => r
termination_by (r.backlog, r.queueLength index)
decreasing_by
  rcases sendNext_progress _h with hlt | ⟨heq, hlt⟩
  · exact Prod.Lex.left _ _ hlt
  · rw [heq]
    exact Prod.Lex.right _ hlt

/-- Notes whether the units of an interface are being given away one after the other. -/
def markDraining (r : Relay) (index : Nat) (draining : Bool) : Relay :=
  r.modifyInterface index fun i => { i with draining }

/-- Gives the units of an interface away and notes that it is at it. What its faces release in the
    meantime goes out in the same sweep. -/
def flush (r : Relay) (index : Nat) : Relay :=
  ((r.markDraining index true).drain index).markDraining index false

/-- Starts giving units of an interface away, unless it is at it already, has none, or waits for its
    timer. If the host has no timer, the units go out unpaced. -/
def kick (r : Relay) (index : Nat) : Relay :=
  match r.interfaces[index]? with
  | none => r
  | some interface =>
    if interface.draining || interface.queue.isEmpty then r
    else
      match interface.pacing with
      | none => r.flush index
      | some delay =>
        if interface.timer.isSome then r
        else
          match r.setTimer delay (.clearToSend index) with
          | (some handle, r) => r.modifyInterface index fun i => { i with timer := some handle }
          | (none, r) =>
            (r.log .warn s!"No timer for interface {index}, sending unpaced").flush index

/-- The timer of a paced interface went off: one unit may go. -/
def clearToSend (r : Relay) (index : Nat) : Relay :=
  let r := r.modifyInterface index fun i => { i with timer := none }
  ((r.sendNext index).getD r).kick index

-- ---------------------------------------------------------------------------
-- Queueing a packet
-- ---------------------------------------------------------------------------

/-- Queues a packet for a face. The flag is false if the face has the same bytes queued or in
    flight already, and nothing was queued. -/
def enqueue (r : Relay) (key : FaceKey) (suite : Suite) (bytes : Bytes) :
    Except RelayError Bool × Relay :=
  match r.face? key with
  | none => (.error .noSuchFace, r)
  | some face =>
    match face.interface with
    | none => (.error .localFace, r)
    | some index =>
      if face.isQueued bytes then
        (.ok false,
          r.log .debug ("Already queued for " ++ FaceKey.text key ++ ", not queueing twice"))
      else
        let r := r.modifyFace key fun f => { f with queue := f.queue ++ [⟨suite, bytes⟩] }
        match r.release key with
        | (true, r) => (.ok true, r.kick index)
        | (false, r) => (.ok true, r)

end Relay

end NameRelay
