-- SUMMARY: Outboxes hold no packet twice, and agree with rings to the unit.
import Mathlib.Data.List.Nodup
import NameRelay.Proofs.Relay.Acceptance

/-!
# Outboxes

The outbox of a face is the packet in flight and those that wait behind it. Packets enter it one at a
time, each new to the face, and while they go out it only gets shorter: a face therefore never has
the same bytes twice. Together with the books of faces and rings this says all there is to say about
an outbox between two calls.
-/

namespace NameRelay

namespace Face

/-- What the face has yet to send, the packet in flight first. -/
def outbox (f : Face) : List Bytes := (f.inFlight.map (·.bytes)).toList ++ f.queue.map (·.bytes)

/-- The face has nothing twice, and nothing at all if it is not reached through an interface. -/
structure Tidy (f : Face) : Prop where
  nodup : f.outbox.Nodup
  empty : f.interface = none → f.outbox = []

variable {f g : Face}

theorem isQueued_iff {bytes : Bytes} : f.isQueued bytes = true ↔ bytes ∈ f.outbox := by
  have hqueue : f.queue.any (fun p => p.bytes == bytes) = true ↔ bytes ∈ f.queue.map (·.bytes) := by
    simp
  rw [isQueued, outbox, List.mem_append, Bool.or_eq_true, hqueue]
  cases f.inFlight with
  | none => simp
  | some p => simp [eq_comm (a := bytes)]

theorem outbox_of_idle (h : f.inFlight = none) : f.outbox = f.queue.map (·.bytes) := by
  rw [outbox, h]
  rfl

theorem outbox_settle (f : Face) : f.settle.outbox.Sublist f.outbox := by
  unfold settle
  split
  · rename_i p hp
    have hbox : f.outbox = p.bytes :: f.queue.map (·.bytes) := by
      rw [outbox, hp]
      rfl
    rw [hbox]
    split
    · exact List.sublist_cons_self ..
    · exact .refl _
  · exact .refl _

/-- A packet that a face takes off its queue stays in the outbox if a unit of it is in flight. -/
theorem outbox_launch {p : QueuedPacket} {rest : List QueuedPacket} (hidle : f.inFlight = none)
    (hqueue : f.queue = p :: rest) (fragmenter : Fragmenter) (units : List Transmission)
    (ring : Ring Transmission maxQueueLength) :
    (f.launch fragmenter rest p.bytes units ring).face.outbox.Sublist f.outbox := by
  rw [outbox_of_idle hidle, hqueue]
  simp only [launch, outbox]
  split
  · exact List.sublist_cons_self ..
  · exact .refl _

end Face

namespace Relay

variable {r s : Relay}

/-- The outboxes of all faces are in order. -/
def Tidy (r : Relay) : Prop := ∀ key f, r.face? key = some f → f.Tidy

/-- Every face of `s` was there in `r`, with the same outbox or a longer one. -/
def Sheds (r s : Relay) : Prop :=
  ∀ key g, s.face? key = some g →
    ∃ f, r.face? key = some f ∧ g.interface = f.interface ∧ g.outbox.Sublist f.outbox

namespace Sheds

theorem refl (r : Relay) : Sheds r r := fun _ g hg => ⟨g, hg, rfl, .refl _⟩

theorem trans {t : Relay} (h : Sheds r s) (h' : Sheds s t) : Sheds r t := by
  intro key g hg
  obtain ⟨f, hf, hinterface, hshorter⟩ := h' key g hg
  obtain ⟨e, he, hinterface', hshorter'⟩ := h key f hf
  exact ⟨e, he, hinterface.trans hinterface', hshorter.trans hshorter'⟩

theorem of_queues (h : s.queues = r.queues) : Sheds r s := by
  intro key g hg
  obtain ⟨f, hf, hsame⟩ := face?_of_queues h hg
  have hflight : f.inFlight = g.inFlight := (congrArg Face.inFlight hsame :)
  have hqueue : f.queue = g.queue := (congrArg Face.queue hsame :)
  refine ⟨f, hf, (congrArg Face.interface hsame.symm :), ?_⟩
  rw [Face.outbox, Face.outbox, hflight, hqueue]

/-- One face gets a shorter outbox. -/
theorem of_face {key : FaceKey} {f g : Face} (hf : r.face? key = some f)
    (hinterface : g.interface = f.interface) (hshorter : g.outbox.Sublist f.outbox)
    (hs : ∀ k, s.face? k = if k = key then some g else r.face? k) : Sheds r s := by
  intro k h hk
  rw [hs] at hk
  split at hk
  · rename_i hkey
    cases hk
    exact ⟨f, hkey ▸ hf, hinterface, hshorter⟩
  · exact ⟨h, hk, rfl, .refl _⟩

theorem step {sign : Sign} (h : Step r sign s) (hout : sign.isOutgoing = true) : Sheds r s := by
  cases h with
  | added | removed | opened | queued => cases hout
  | @uncut key f _ p rest _ fragmenter hf _ hidle hqueue _ =>
    have hshorter : ({ f with queue := rest, fragmenter } : Face).outbox.Sublist f.outbox := by
      rw [Face.outbox_of_idle (f := { f with queue := rest, fragmenter }) hidle,
        Face.outbox_of_idle hidle, hqueue]
      exact List.sublist_cons_self ..
    refine of_face (g := { f with queue := rest, fragmenter }) hf rfl hshorter fun k => ?_
    rw [face?_modifyFace]
    split
    · rename_i hk
      rw [hk, hf]
      rfl
    · rfl
  | @released key f index i p rest fragments fragmenter hf _ _ hidle hqueue _ =>
    have hshorter := Face.outbox_launch hidle hqueue fragmenter (f.units key p.bytes fragments) i.queue
    exact of_face (g := (f.launch fragmenter rest p.bytes _ i.queue).face) hf rfl hshorter
      (face?_released hf)
  | @sent key f index i unit queue hf hi hpop hkey =>
    refine of_face hf (Face.line_eq_iff.1 f.line_settle).1 f.outbox_settle fun k => ?_
    split
    · rename_i hk
      rw [hk]
      exact face?_sent hf index i queue unit
    · rename_i hk
      rw [sent, face?_modifyFace, if_neg hk]
      rfl

/-- While packets go out no outbox gets anything new. -/
theorem outgoing (h : Outgoing r s) : Sheds r s := by
  obtain ⟨trace, hsteps, hout⟩ := h
  induction hsteps with
  | refl => exact refl _
  | quiet _ hqueues _ ih => exact (ih hout).trans (of_queues hqueues)
  | tail _ hstep ih =>
    refine (ih fun sign hmem => hout sign (List.mem_append_left _ hmem)).trans (step hstep ?_)
    exact hout _ (List.mem_append_right _ List.mem_cons_self)

end Sheds

namespace Tidy

theorem of_sheds (hr : r.Tidy) (h : Sheds r s) : s.Tidy := by
  intro key g hg
  obtain ⟨f, hf, hinterface, hshorter⟩ := h key g hg
  refine ⟨(hr key f hf).nodup.sublist hshorter, fun hnone => ?_⟩
  have hempty := (hr key f hf).empty (hinterface.symm.trans hnone)
  exact List.sublist_nil.1 (hempty ▸ hshorter)

/-- A packet that is new to a face of an interface may be queued. -/
theorem queued (hr : r.Tidy) {key : FaceKey} {f : Face} {index : Nat} {suite : Suite} {bytes : Bytes}
    (hf : r.face? key = some f) (hindex : f.interface = some index)
    (hnew : f.isQueued bytes = false) :
    (r.modifyFace key fun f => { f with queue := f.queue ++ [⟨suite, bytes⟩] }).Tidy := by
  intro k g hg
  rw [face?_modifyFace] at hg
  split at hg
  · rename_i hk
    rw [hk, hf] at hg
    cases hg
    have hbox : ({ f with queue := f.queue ++ [⟨suite, bytes⟩] } : Face).outbox =
        f.outbox ++ [bytes] := by
      simp [Face.outbox]
    refine ⟨?_, fun hnone => nomatch hindex.symm.trans hnone⟩
    rw [hbox, ← List.concat_eq_append, List.nodup_concat]
    refine ⟨fun hmem => ?_, (hr key f hf).nodup⟩
    cases (Face.isQueued_iff.2 hmem).symm.trans hnew
  · exact hr k g hg

theorem enqueue (hb : r.Balanced) (hr : r.Tidy) (key : FaceKey) (suite : Suite) (bytes : Bytes) :
    (r.enqueue key suite bytes).2.Tidy := by
  rcases enqueue_cases hb key suite bytes with ⟨f, index, hf, hindex, haccepted, hgoes⟩ | ⟨-, hquiet⟩
  · obtain ⟨g, -, hg, -, hnew⟩ := enqueue_accepts_iff.1 haccepted
    cases hf.symm.trans hg
    exact (hr.queued hf hindex hnew).of_sheds (.outgoing ((outgoing_release _ key).trans hgoes))
  · exact hr.of_sheds (.of_queues (queues_of_links hquiet))

theorem insertFace (hr : r.Tidy) {f : Face} (hf : f.outbox = []) :
    ({ r with faces := (r.faces.insert f).2 } : Relay).Tidy := by
  intro key g hg
  rcases Slots.get?_of_get?_insert hg with rfl | hold
  · exact ⟨by rw [hf]; exact .nil, fun _ => hf⟩
  · exact hr key g hold

/-! ## Runs -/

theorem act (hb : r.Balanced) (hr : r.Tidy) (h : Act r s) : s.Tidy := by
  cases h with
  | quiet h => exact hr.of_sheds (.of_queues (queues_of_links h))
  | enqueue key suite bytes => exact hr.enqueue hb key suite bytes
  | newFace | newApplicationFace => exact hr.insertFace rfl
  | removeFace key =>
    intro k g hg
    rw [face?_removeFace] at hg
    split at hg
    · cases hg
    · exact hr k g hg
  | newInterface => exact hr
  | pace index pacing => exact hr.of_sheds (.of_queues (queues_modifyInterface r index fun _ => rfl))

theorem acts (hb : r.Balanced) (hr : r.Tidy) (h : Acts r s) : s.Tidy := by
  induction h with
  | refl => exact hr
  | tail h hact ih => exact act (hb.acts h) ih hact

theorem onTimer (hb : r.Balanced) (hr : r.Tidy) (event : TimerEvent) : (r.onTimer event).Tidy := by
  cases event with
  | clearToSend index => exact hr.of_sheds (.outgoing (outgoing_clearToSend hb index))
  | ageing =>
    have hdisarmed : ({ r with ageingTimer := none } : Relay).Balanced := hb.of_queues rfl
    have hswept : ({ r with ageingTimer := none } : Relay).age.Tidy := acts hdisarmed hr (acts_age _)
    have harmed := hswept.of_sheds (.of_queues (queues_armAgeing _))
    rcases onTimer_ageing_cases r rfl with hs | ⟨text, hs⟩ <;> rw [hs]
    · exact harmed
    · exact harmed.of_sheds (.of_queues (queues_of_links (links_log _ _ _)))

/-- Every call keeps the outboxes in order. -/
theorem perform (hb : r.Balanced) (hr : r.Tidy) (c : Call) : (r.perform c).Tidy := by
  cases htimed : c.isTimed with
  | false => exact acts hb hr (acts_perform r htimed)
  | true =>
    cases c with
    | start => exact hr.of_sheds (.of_queues (queues_start r))
    | stop => exact hr.of_sheds (.of_queues (queues_stop r))
    | onTimer event => exact hr.onTimer hb event
    | expire event =>
      simp only [Relay.perform]
      split
      · exact hr
      · exact hr
    | _ => cases htimed

end Tidy

theorem tidy_withLimits (host : Host) (c : Config) : (withLimits host c).Tidy := by
  simp [Tidy, withLimits, face?]

theorem Reachable.tidy (h : Reachable r) : r.Tidy := by
  induction h with
  | fresh => exact tidy_withLimits _ _
  | configured now digest grants c h =>
    exact Tidy.acts (balanced_withLimits _ c) (tidy_withLimits _ c) ((acts_configured _ c).of_eq h)
  | perform h c ih => exact ih.perform h.balanced c

/-! ## Outboxes and rings -/

section

variable {key : FaceKey} {f : Face}

/-- Units of a face wait at its own interface only. -/
theorem Lines.unitsOf_of_ne (hr : r.Lines) (hf : r.face? key = some f) {index : Nat}
    (hindex : f.interface ≠ some index) : r.unitsOf key index = 0 := by
  refine List.countP_eq_zero.2 fun unit hunit hown => ?_
  obtain ⟨k, g, hk, hg, hhere, -⟩ := hr.owned index unit hunit
  rw [hk, beq_iff_eq, Option.some.injEq] at hown
  rw [hown, hf] at hg
  cases hg
  exact hindex hhere

/-- Packets wait only behind one in flight. -/
theorem Balanced.inFlight_of_queue (hb : r.Balanced) (hr : r.Tidy) (hf : r.face? key = some f)
    (hqueue : f.queue ≠ []) : f.inFlight.isSome = true := by
  by_contra hnone
  rw [Option.not_isSome_iff_eq_none] at hnone
  cases hindex : f.interface with
  | some index => exact hqueue ((hb.settled key f index hf hindex).2 hnone)
  | none =>
    have hempty := (hr key f hf).empty hindex
    rw [Face.outbox_of_idle hnone, List.map_eq_nil_iff] at hempty
    exact hqueue hempty

/-- What remains of a packet in flight is in the ring of the face's interface. -/
theorem Balanced.remaining_eq (hb : r.Balanced) (hr : r.Tidy) (hf : r.face? key = some f)
    {p : InFlight} (hflight : f.inFlight = some p) :
    1 ≤ p.remaining ∧ ∃ index i, f.interface = some index ∧ r.interfaces[index]? = some i ∧
      i.queue.toList.countP (fun unit => unit.face == some key) = p.remaining := by
  cases hindex : f.interface with
  | none =>
    have hempty := (hr key f hf).empty hindex
    rw [Face.outbox, hflight] at hempty
    cases hempty
  | some index =>
    obtain ⟨i, hi, -⟩ := hb.homes key f index hf hindex
    obtain ⟨hremaining, hsome⟩ :=
      (Face.counts_of_some hflight).1 (hb.settled key f index hf hindex).1
    rw [hremaining]
    refine ⟨hsome, index, i, rfl, hi, ?_⟩
    rw [unitsOf, units_of_interface hi]

/-- Without a packet in flight a face has no unit in any ring. -/
theorem Balanced.unitsOf_of_idle (hb : r.Balanced) (hf : r.face? key = some f)
    (hidle : f.inFlight = none) (index : Nat) : r.unitsOf key index = 0 := by
  by_cases hindex : f.interface = some index
  · exact (Face.counts_of_none hidle).1 (hb.settled key f index hf hindex).1
  · exact hb.toLines.unitsOf_of_ne hf hindex

end

/-- Between two calls no face has the same bytes twice, and packets wait only behind one in flight.
    As many units as remain of that one are in the ring of the face's interface, at least one, and
    none if no packet is in flight. No interface is left in the midst of being drained. -/
theorem outboxes_exact (h : Reachable r) :
    (∀ key f, r.face? key = some f →
      ((f.inFlight.map (·.bytes)).toList ++ f.queue.map (·.bytes)).Nodup ∧
      (f.queue ≠ [] → f.inFlight.isSome = true) ∧
      (∀ p, f.inFlight = some p → 1 ≤ p.remaining ∧ ∃ index i, f.interface = some index ∧
        r.interfaces[index]? = some i ∧
        i.queue.toList.countP (fun unit => unit.face == some key) = p.remaining) ∧
      (f.inFlight = none → ∀ i ∈ r.interfaces, ∀ unit ∈ i.queue.toList, unit.face ≠ some key)) ∧
    ∀ i ∈ r.interfaces, i.draining = false := by
  have hb := h.balanced
  refine ⟨fun key f hf => ⟨(h.tidy key f hf).nodup, hb.inFlight_of_queue h.tidy hf,
    fun p hp => hb.remaining_eq h.tidy hf hp, fun hidle i hmem unit hunit hown => ?_⟩, hb.calm⟩
  obtain ⟨index, hi⟩ := List.mem_iff_getElem?.1 hmem
  have hnone := hb.unitsOf_of_idle hf hidle index
  rw [unitsOf, units_of_interface hi] at hnone
  exact List.countP_eq_zero.1 hnone unit hunit (beq_iff_eq.2 hown)

/-- Two interests follow one route over a paced interface. -/
def pacedCalls : List Call :=
  [.addInterface (.path "own") 0 {}, .setPacing 0 (some 1000), .addFace 0 (.path "next") {},
    .addRoute ⟨.ndn, [[97]], none, .none⟩ .ndn (.face ⟨0, 0⟩),
    .receive 0 [5, 11, 7, 3, 8, 1, 97, 10, 4, 0, 0, 0, 1] (.path "first"),
    .receive 0 [5, 14, 7, 6, 8, 1, 97, 8, 1, 98, 10, 4, 0, 0, 0, 2] (.path "first")]

/-- One of the two is in flight, and the other waits behind it. -/
theorem paced_outbox_exact :
    let r := (Relay.fresh (Host.fresh ⟨0⟩ (fun _ => none) fun _ => true)).performAll pacedCalls
    Reachable r ∧ ∃ f p, r.face? ⟨0, 0⟩ = some f ∧ f.inFlight = some p ∧ p.remaining = 1 ∧
      f.queue.length = 1 ∧ f.outbox.Nodup ∧ ∀ i ∈ r.interfaces, i.draining = false := by
  have hreachable := (Reachable.fresh ⟨0⟩ (fun _ => none) fun _ => true).performAll pacedCalls
  obtain ⟨hfaces, hcalm⟩ := outboxes_exact hreachable
  have hwaits : (((Relay.fresh (Host.fresh ⟨0⟩ (fun _ => none) fun _ => true)).performAll
      pacedCalls).face? ⟨0, 0⟩).map (fun f => (f.inFlight.map (·.remaining), f.queue.length)) =
        some (some 1, 1) := by decide +kernel
  obtain ⟨f, hf, hboth⟩ := Option.map_eq_some_iff.1 hwaits
  obtain ⟨hflight, hlength⟩ := Prod.mk.inj hboth
  obtain ⟨p, hp, hremaining⟩ := Option.map_eq_some_iff.1 hflight
  exact ⟨hreachable, f, p, hf, hp, hremaining, hlength, (hfaces _ f hf).1, hcalm⟩

end Relay

end NameRelay
