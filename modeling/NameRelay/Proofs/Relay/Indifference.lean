-- SUMMARY: What a relay makes of a buffer does not depend on what it made happen before.
import NameRelay.Proofs.Relay.Sequence
import NameRelay.Proofs.Relay.Unnoticed

/-!
# Indifference to earlier effects

A relay adds to its effects and never looks at them. Another past in front of them stays there,
whatever the relay does with the packets of a buffer. Two relays that differ in their records only
are one relay behind two pasts, so they differ in their records only once they have handled the same
buffer.
-/

namespace NameRelay

namespace Relay

/-- The relay with other effects in front of its own. -/
def behind (past : List Effect) (r : Relay) : Relay :=
  { r with host := { r.host with effects := past ++ r.host.effects } }

/-- The outcome of an operation, with other effects in front of those of the relay. -/
def outcomeBehind {α : Type} (past : List Effect) (x : α × Relay) : α × Relay :=
  (x.1, x.2.behind past)

theorem emit_behind (past : List Effect) (r : Relay) (e : Effect) :
    (r.behind past).emit e = (r.emit e).behind past := by
  simp only [behind, emit, Host.emit, List.append_assoc]

theorem unnoticed_behind (past : List Effect) : Unnoticed id (fun _ i => i) (behind past) where
  queue _ _ := rfl
  setQueue _ _ _ := rfl
  faces r := (Slots.mapEntries_eq_self fun _ _ _ => rfl).symm
  setFaces r faces := by
    have hsame : faces.mapEntries (Face.recast id) = faces :=
      Slots.mapEntries_eq_self fun _ _ _ => rfl
    rw [hsame]
    rfl
  interfaces r := (Unnoticed.mapIdx_id r.interfaces).symm
  setInterfaces r interfaces := by
    rw [Unnoticed.mapIdx_id]
    rfl
  emit r e := (emit_behind past r e).symm
  note _ _ := rfl
  setTimer r delay event := by
    cases hgrants : r.host.grants r.host.requested <;>
      simp [setTimer, Host.setTimer, behind, hgrants, Host.emit]

theorem foldl_behind {α : Type} (past : List Effect) {f : Relay → α → Relay}
    (hf : ∀ r a, f (r.behind past) a = (f r a).behind past) (r : Relay) (as : List α) :
    as.foldl f (r.behind past) = (as.foldl f r).behind past :=
  List.foldl_hom (behind past) fun r a => hf r a

section

variable (past : List Effect) (r : Relay)

theorem log_behind (level : LogLevel) (text : String) :
    (r.behind past).log level text = (r.log level text).behind past :=
  emit_behind past r _

theorem logAll_behind (records : List LogRecord) :
    (r.behind past).logAll records = (r.logAll records).behind past :=
  (unnoticed_behind past).logAll r records

theorem serve_behind (key : FaceKey) (content : Packet) :
    (r.behind past).serve key content = outcomeBehind past (r.serve key content) :=
  (unnoticed_behind past).serve r key content

theorem enqueue_behind (key : FaceKey) (suite : Suite) (bytes : Bytes) :
    (r.behind past).enqueue key suite bytes = outcomeBehind past (r.enqueue key suite bytes) :=
  (unnoticed_behind past).enqueue r key suite bytes

/-! ## Contents -/

theorem serveOnce_behind (content : Packet) (key : FaceKey) :
    (r.behind past).serveOnce content key = (r.serveOnce content key).behind past := by
  have hface : (r.behind past).face? key = r.face? key := rfl
  have hmarked (g : Face → Face) :
      (r.behind past).modifyFace key g = (r.modifyFace key g).behind past := rfl
  unfold serveOnce
  rw [hface]
  cases r.face? key with
  | none => rfl
  | some face =>
    dsimp only
    rw [hmarked, serve_behind]
    split
    · rfl
    · rcases (r.modifyFace key _).serve key content with ⟨e | _, s⟩
      · exact log_behind past s _ _
      · rfl

theorem satisfy_behind (content : Packet) (key : InterestKey) :
    (r.behind past).satisfy content key = (r.satisfy content key).behind past := by
  have hpending : (r.behind past).pending = r.pending := rfl
  unfold satisfy
  rw [hpending]
  cases r.pending.get? key with
  | none => rfl
  | some entry =>
    exact foldl_behind past (f := (serveOnce · content))
      (fun s waiter => serveOnce_behind past s content waiter)
      { r with pending := r.pending.remove key } entry.faces

theorem servePending_behind (content : Packet) :
    (r.behind past).servePending content = outcomeBehind past (r.servePending content) := by
  have hkeys : (r.behind past).satisfied content = r.satisfied content := rfl
  have hserved := foldl_behind past (f := (satisfy · content))
    (fun s key => satisfy_behind past s content key) r (r.satisfied content)
  unfold servePending
  dsimp only
  rw [hkeys, hserved]
  rfl

theorem store_behind (content : Packet) (flags : ContentFlags) :
    (r.behind past).store content flags = outcomeBehind past (r.store content flags) := by
  have hinserted : (r.behind past).contents.insert content flags (r.behind past).now =
      r.contents.insert content flags r.now := rfl
  unfold store
  rw [hinserted]
  rcases r.contents.insert content flags r.now with ⟨outcome, contents⟩
  have hlogged := logAll_behind past { r with contents } (outcome.records content)
  cases outcome <;> exact congrArg _ hlogged

theorem handleContent_behind (origin : FaceKey) (content : Packet) :
    (r.behind past).handleContent origin content =
      outcomeBehind past (r.handleContent origin content) := by
  have hduplicate : (r.behind past).contents.duplicate? content = r.contents.duplicate? content :=
    rfl
  unfold handleContent
  rw [hduplicate, servePending_behind]
  split
  · exact congrArg _ (log_behind past r _ _)
  · rcases r.servePending content with ⟨_ | n, s⟩
    · exact congrArg _ (log_behind past s _ _)
    · change (if s.contents.isEnabled = true then
          (((s.behind past).store content {}).1.map (fun _ => ()),
            ((s.behind past).store content {}).2)
        else _) = outcomeBehind past (if s.contents.isEnabled = true then _ else _)
      rw [store_behind]
      split <;> rfl

/-! ## Interests -/

theorem handOver_behind (interest : Packet) (name : Name) (origin : FaceKey) (reflects : Bool)
    (d : Destination) : (r.behind past).handOver interest name origin reflects d =
      outcomeBehind past (r.handOver interest name origin reflects d) := by
  have hnoted (deed : Deed) : (r.behind past).note deed = (r.note deed).behind past := rfl
  cases d with
  | tap => exact congrArg (Prod.mk 1) (emit_behind past (r.note _) _)
  | face key =>
    have hface (s : Relay) : (s.behind past).face? key = s.face? key := rfl
    unfold handOver
    dsimp only
    rw [hnoted, hface, enqueue_behind]
    split
    · rfl
    · split
      · exact congrArg _ (emit_behind past _ _)
      · rcases (r.note _).enqueue key interest.suite interest.bytes with ⟨e | queued, s⟩
        · exact congrArg _ (log_behind past s _ _)
        · rfl

theorem handOverAll_behind (interest : Packet) (name : Name) (origin : FaceKey) (reflects : Bool)
    (destinations : List Destination) :
    (r.behind past).handOverAll interest name origin reflects destinations =
      outcomeBehind past (r.handOverAll interest name origin reflects destinations) := by
  induction destinations generalizing r with
  | nil => rfl
  | cons d rest ih =>
    unfold handOverAll
    rw [handOver_behind]
    exact congrArg (fun x : Nat × Relay => (_ + x.1, x.2)) (ih _)

theorem propagate_behind (key : InterestKey) :
    (r.behind past).propagate key = outcomeBehind past (r.propagate key) := by
  have hpending : (r.behind past).pending = r.pending := rfl
  unfold propagate
  rw [hpending]
  cases r.pending.get? key with
  | none => rfl
  | some entry =>
    dsimp only
    cases entry.packet.name? with
    | none => rfl
    | some name =>
      have hsent := handOverAll_behind past
        { r with pending := r.pending.modify key fun e => { e with lastAttempt := r.now } }
        entry.packet name entry.origin ((r.face? entry.origin).any (·.flags.reflects))
        ((r.routes.covering name).map (·.destination))
      refine (congrArg (fun x : Nat × Relay => (x.1, (x.2.note (.tried key r.now x.1)).log .trace
        s!"{name.toUri} went to {x.1} destinations")) hsent).trans ?_
      exact congrArg (Prod.mk _) (log_behind past (note _ _) _ _)

theorem recordNonce_behind (interest : Packet) :
    (r.behind past).recordNonce interest = outcomeBehind past (r.recordNonce interest) := by
  unfold recordNonce
  split <;> rfl

theorem answerFromStore_behind (origin : FaceKey) (interest : Packet) (key : ContentKey) :
    (r.behind past).answerFromStore origin interest key =
      outcomeBehind past (r.answerFromStore origin interest key) := by
  have htouched : (r.behind past).contents.touch key (r.behind past).now =
      r.contents.touch key r.now := rfl
  unfold answerFromStore
  dsimp only
  rw [htouched]
  cases (r.contents.touch key r.now).get? key with
  | none => rfl
  | some e =>
    have hlogged := log_behind past { r with contents := r.contents.touch key r.now } .trace
      ("Answering " ++ interest.label ++ " from the content store")
    exact (congrArg (·.serve origin e.packet) hlogged).trans (serve_behind past _ origin e.packet)

theorem joinPending_behind (origin : FaceKey) (key : InterestKey) :
    (r.behind past).joinPending origin key = (r.joinPending origin key).behind past := by
  have hpropagated := propagate_behind past
    { r with pending := r.pending.modify key fun e => e.addWaiter origin r.now } key
  change (if (r.face? origin).any (·.flags.forwardsAll) then _ else _) =
    behind past (if (r.face? origin).any (·.flags.forwardsAll) then _ else _)
  split
  · exact congrArg (·.2) hpropagated
  · rfl

theorem startPending_behind (origin : FaceKey) (interest : Packet) :
    (r.behind past).startPending origin interest =
      (r.startPending origin interest).behind past := by
  have hinserted : (r.behind past).pending.insert (.fresh interest origin (r.behind past).now) =
      r.pending.insert (.fresh interest origin r.now) := rfl
  unfold startPending
  rw [hinserted]
  rcases r.pending.insert (.fresh interest origin r.now) with ⟨key, pending⟩
  dsimp only
  split
  · exact congrArg (·.2) (propagate_behind past ({ r with pending }.note (.began key)) key)
  · exact log_behind past ({ r with pending }.note (.began key)) _ _

theorem handleInterest_behind (origin : FaceKey) (interest : Packet) :
    (r.behind past).handleInterest origin interest =
      outcomeBehind past (r.handleInterest origin interest) := by
  unfold handleInterest
  rw [recordNonce_behind]
  rcases r.recordNonce interest with ⟨_ | _, s⟩
  · have hstored : (s.behind past).stored? interest = s.stored? interest := rfl
    have hpending : (s.behind past).pending = s.pending := rfl
    dsimp only [outcomeBehind]
    rw [hstored, hpending]
    split
    · exact answerFromStore_behind past s origin interest _
    · split
      · exact congrArg _ (joinPending_behind past s origin _)
      · exact congrArg _ (startPending_behind past s origin interest)
  · exact congrArg _ (log_behind past s _ _)

/-! ## Packets -/

section

variable {onFragment : FragmentHandler}
  (hfragment : ∀ r key packet,
    onFragment (r.behind past) key packet = outcomeBehind past (onFragment r key packet))
include hfragment

theorem handlePacket_behind (key : FaceKey) (packet : Packet) :
    handlePacket onFragment key (r.behind past) packet =
      outcomeBehind past (handlePacket onFragment key r packet) := by
  unfold handlePacket
  split
  · unfold handleHop
    split
    · exact handleInterest_behind past r key _
    · exact congrArg _ (log_behind past r _ _)
  · exact handleContent_behind past r key packet
  · exact congrArg _ (log_behind past r _ _)
  · exact hfragment r key packet

theorem dispatch_behind (key : FaceKey) (packet : Packet) :
    dispatch onFragment key (r.behind past) packet =
      (dispatch onFragment key r packet).behind past := by
  have hannounced : (r.behind past).announce key packet = (r.announce key packet).behind past := by
    rw [announce, logAll_behind, log_behind]
    rfl
  unfold dispatch
  rw [hannounced, handlePacket_behind past _ hfragment]
  rcases handlePacket onFragment key (r.announce key packet) packet with ⟨e | _, s⟩
  · exact log_behind past s _ _
  · rfl

end

end

theorem dropFragment_behind (past : List Effect) (r : Relay) (key : FaceKey) (packet : Packet) :
    dropFragment (r.behind past) key packet = outcomeBehind past (dropFragment r key packet) :=
  congrArg _ (log_behind past r _ _)

/-! ## Records -/

theorem unlogged_behind (past : List Effect) (r : Relay) :
    (r.behind past).unlogged = r.unlogged.behind (past.filter fun e => !e.isRecord) := by
  simp only [behind, unlogged, List.filter_append]

/-- The relay as if nothing had happened. -/
def pastless (r : Relay) : Relay := { r with host := { r.host with effects := [] } }

theorem behind_pastless (r : Relay) : r.pastless.behind r.host.effects = r := by
  simp only [behind, pastless, List.append_nil]

/-- What relays make of packets differs in the records only, if they differ in the records only. -/
theorem unlogged_foldl_dispatch {r s : Relay} (h : s.unlogged = r.unlogged) (key : FaceKey)
    (packets : List Packet) :
    (packets.foldl (dispatch dropFragment key) s).unlogged =
      (packets.foldl (dispatch dropFragment key) r).unlogged := by
  have hsplit (t : Relay) : (packets.foldl (dispatch dropFragment key) t).unlogged =
      (packets.foldl (dispatch dropFragment key) t.pastless).unlogged.behind
        t.unlogged.host.effects := by
    conv_lhs => rw [← behind_pastless t]
    rw [foldl_behind _ fun t packet =>
      dispatch_behind _ t (dropFragment_behind _) key packet, unlogged_behind]
    rfl
  have hpastless : s.pastless = r.pastless := (congrArg pastless h :)
  rw [hsplit s, hsplit r, hpastless, h]

end Relay

end NameRelay
