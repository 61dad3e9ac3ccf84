-- SUMMARY: A face accepts every packet that is new to it, whether or not the packet can go out.
import NameRelay.Proofs.Relay.Places
import NameRelay.Proofs.Relay.Trains

/-!
# Acceptance

A face accepts every packet that it does not have yet, and its answer is settled before it is known
whether the packet can be cut and whether the ring has room for all of its units. If the face waits
for a packet in flight the new one is safe in the queue. Otherwise it is kept just if it can be cut
and all of its units find room.
-/

namespace NameRelay

/-- The bytes that were transmitted at this interface to this address. -/
def Effect.toward? (index : Nat) (address : FaceAddress) : Effect → Option Bytes
  | .send i a bytes => if i = index ∧ a = address then some bytes else none
  | _ => none

namespace Relay

/-- What was transmitted at this interface to this address since. -/
def transmitted (r s : Relay) (index : Nat) (address : FaceAddress) : List Bytes :=
  (s.sends.drop r.sends.length).filterMap (Effect.toward? index address)

/-- The packet waits at its face in `s`, or it can be cut, and all of its units were transmitted since
    or are in the ring. -/
def Kept (r s : Relay) (key : FaceKey) (f : Face) (index : Nat) (p : QueuedPacket) : Prop :=
  p ∈ s.queueOf key ∨ ∃ fragments fragmenter,
    f.fragmenter.fragment p.suite p.bytes = (.ok fragments, fragmenter) ∧
    r.transmitted s index f.address ++ s.own key index = fragments.getD [p.bytes]

/-! ## Transmissions to a place -/

section

variable {r s u v : Relay} {key : FaceKey} {f : Face} {index : Nat} {sign : Sign} {trace : List Sign}

theorem Placed.of_onLine (h : OnLine key r s) : Placed r s := by
  intro k g hg
  obtain ⟨f, hf, hline⟩ := h.before hg
  obtain ⟨hinterface, haddress, -⟩ := Face.line_eq_iff.1 hline
  exact ⟨f, hf, hinterface, haddress⟩

theorem Placed.of_queues (h : s.queues = r.queues) : Placed r s := by
  intro k g hg
  obtain ⟨f, hf, hsame⟩ := face?_of_queues h hg
  exact ⟨f, hf, (congrArg Face.interface hsame.symm :), (congrArg Face.address hsame.symm :)⟩

/-- An outgoing step is about the outbox of one face. -/
theorem face?_of_outgoing (h : Step r sign s) (hout : sign.isOutgoing = true) :
    ∃ key, sign.face? = some key := by
  cases h with
  | added | removed | opened | queued => cases hout
  | uncut | released => exact ⟨_, rfl⟩
  | sent hf hi hpop hkey => exact ⟨_, hkey⟩

/-- While packets go out faces keep their places. -/
theorem Placed.of_outgoing (hr : r.Accounted) (h : Steps r trace s)
    (hout : ∀ sign ∈ trace, sign.isOutgoing = true) : Placed r s := by
  induction h with
  | refl => exact .of_faces rfl
  | quiet _ hqueues _ ih => exact (ih hout).trans (.of_queues hqueues)
  | @tail _ _ _ sign hsteps hstep ih =>
    obtain ⟨key, hkey⟩ := face?_of_outgoing hstep
      (hout sign (List.mem_append_right _ List.mem_cons_self))
    have hline := ((hr.steps hsteps).onLine_step hstep hkey).1
    exact (ih fun sign hmem => hout sign (List.mem_append_left _ hmem)).trans (.of_onLine hline)

/-- What goes to the place of a face are the units of the face. -/
theorem toward_of_step (ha : r.Addressed) (hf : r.face? key = some f)
    (hindex : f.interface = some index) (hu : u.Accounted) (hplaced : Placed r u) (h : Step u sign v) :
    sign.effect?.bind (Effect.toward? index f.address) = sign.sent? key := by
  cases h with
  | added | removed | opened | queued | uncut | released => rfl
  | @sent k g j i unit queue hg hi hpop hunit =>
    obtain ⟨hj, hunits, -⟩ := sent_line hu.toLines (hu.counted k) hg hi hpop hunit
    obtain ⟨l, g', hl, hg', -, haddress⟩ := hu.owned j unit (hunits ▸ List.mem_cons_self)
    cases hunit.symm.trans hl
    cases hg.symm.trans hg'
    obtain ⟨e, he, hinterface, hsame⟩ := hplaced k g hg
    have hplace : (j = index ∧ unit.destination = f.address) ↔ unit.face = some key := by
      rw [hunit, Option.some.injEq, haddress, hsame]
      constructor
      · rintro ⟨rfl, hto⟩
        exact ha k key e f j he hf (hinterface.symm.trans hj) hindex hto
      · rintro rfl
        cases hf.symm.trans he
        exact ⟨Option.some.inj (hj.symm.trans (hinterface.trans hindex)), rfl⟩
    simp only [Sign.effect?, Option.bind_some, Effect.toward?, Sign.sent?, hplace]

theorem toward_of_steps (hr : r.Accounted) (ha : r.Addressed) (hf : r.face? key = some f)
    (hindex : f.interface = some index) (h : Steps r trace s)
    (hout : ∀ sign ∈ trace, sign.isOutgoing = true) :
    (trace.filterMap Sign.effect?).filterMap (Effect.toward? index f.address) =
      trace.filterMap (Sign.sent? key) := by
  rw [List.filterMap_filterMap]
  induction h with
  | refl => rfl
  | quiet _ _ _ ih => exact ih hout
  | @tail _ _ trace sign hsteps hstep ih =>
    have hbefore : ∀ sign ∈ trace, sign.isOutgoing = true := fun sign hmem =>
      hout sign (List.mem_append_left _ hmem)
    have hlast := toward_of_step ha hf hindex (hr.steps hsteps) (.of_outgoing hr hsteps hbefore) hstep
    rw [List.filterMap_append, List.filterMap_append, ih hbefore]
    simp only [List.filterMap_cons, List.filterMap_nil, hlast]

theorem transmitted_eq (hr : r.Accounted) (ha : r.Addressed) (hf : r.face? key = some f)
    (hindex : f.interface = some index) (h : Steps r trace s)
    (hout : ∀ sign ∈ trace, sign.isOutgoing = true) :
    r.transmitted s index f.address = trace.filterMap (Sign.sent? key) := by
  rw [transmitted, sends_steps h, List.drop_left]
  exact toward_of_steps hr ha hf hindex h hout

end

/-! ## Queueing a packet -/

theorem taken?_of_train? {sign : Sign} {key : FaceKey} {train : Train}
    (h : sign.train? key = some train) : sign.taken? key = some train.packet := by
  cases sign with
  | released k t =>
    obtain ⟨hk, htrain⟩ := Option.ite_none_right_eq_some.1 h
    cases htrain
    exact if_pos hk
  | added | removed | opened | queued | uncut | sent => cases h

theorem Sign.none_of_taken {sign : Sign} {key : FaceKey} {p : QueuedPacket}
    (h : sign.taken? key = some p) : sign.sent? key = none ∧ sign.queued? key = none := by
  cases sign with
  | uncut | released => exact ⟨rfl, rfl⟩
  | added | removed | opened | queued | sent => cases h

/-- What is taken off the queue and can be cut becomes a train. -/
theorem train?_of_cut {r s : Relay} {sign : Sign} {key : FaceKey} {f : Face} {index : Nat}
    {p : QueuedPacket} {fragments : Option (List Bytes)} {fragmenter : Fragmenter}
    (h : Step r sign s) (htaken : sign.taken? key = some p) (hf : r.face? key = some f)
    (hindex : f.interface = some index)
    (hcut : f.fragmenter.fragment p.suite p.bytes = (.ok fragments, fragmenter)) :
    sign.train? key =
      some ⟨p, fragments.getD [p.bytes], maxQueueLength - (r.units index).length⟩ := by
  cases h with
  | added | removed | opened | queued | sent => cases htaken
  | uncut hf' _ _ _ hcut' =>
    obtain ⟨rfl, hp⟩ := Option.ite_none_right_eq_some.1 htaken
    cases hp
    cases hf.symm.trans hf'
    cases hcut.symm.trans hcut'
  | released hf' hindex' _ _ _ hcut' =>
    obtain ⟨rfl, hp⟩ := Option.ite_none_right_eq_some.1 htaken
    cases hp
    cases hf.symm.trans hf'
    cases hindex.symm.trans hindex'
    cases hcut.symm.trans hcut'
    exact if_pos rfl

section

variable {r s : Relay} {key : FaceKey} {f : Face} {index : Nat} {suite : Suite} {bytes : Bytes}

/-- A face with nothing in its queue only gives away what it has in the ring. -/
theorem outgoing_idle {trace : List Sign} (hr : r.Accounted) (hat : r.At key index)
    (hqueue : r.queueOf key = []) (h : Steps r trace s)
    (hout : ∀ sign ∈ trace, sign.isOutgoing = true) : s.queueOf key = [] ∧
      trace.filterMap (Sign.sent? key) ++ s.own key index = r.own key index := by
  have hkept : .removed key ∉ trace := fun hmem => by cases hout _ hmem
  have hqueued : trace.filterMap (Sign.queued? key) = [] :=
    List.filterMap_eq_nil_iff.2 fun sign hmem => Sign.queued?_of_outgoing (hout sign hmem) key
  have hflow := Flow.of_steps hr hat h hkept
  obtain ⟨htaken, hempty⟩ := List.append_eq_nil_iff.1 (hflow.queue.trans (by rw [hqueue, hqueued]; rfl))
  have htrains : trace.filterMap (Sign.train? key) = [] := by
    refine List.filterMap_eq_nil_iff.2 fun sign hmem => ?_
    have hnone := List.filterMap_eq_nil_iff.1 htaken sign hmem
    cases htrain : sign.train? key with
    | none => rfl
    | some train => cases (taken?_of_train? htrain).symm.trans hnone
  refine ⟨hempty, hflow.ring.trans ?_⟩
  rw [htrains, List.flatMap_nil, List.append_nil]

theorem enqueue_eq (hf : r.face? key = some f) (hindex : f.interface = some index)
    (hnew : f.isQueued bytes = false) {released : Bool} {t : Relay}
    (h : (r.modifyFace key fun f => { f with queue := f.queue ++ [⟨suite, bytes⟩] }).release key =
      (released, t)) :
    r.enqueue key suite bytes = (.ok true, if released then t.kick index else t) := by
  simp only [enqueue, hf, hindex, hnew, h, Bool.false_eq_true, if_false]
  cases released <;> rfl

/-- A packet is accepted just if there is a face for it that does not have it yet. -/
theorem enqueue_accepts_iff : (r.enqueue key suite bytes).1 = .ok true ↔
    ∃ f index, r.face? key = some f ∧ f.interface = some index ∧ f.isQueued bytes = false := by
  constructor
  · intro h
    unfold enqueue at h
    split at h
    · cases h
    · rename_i f hf
      split at h
      · cases h
      · rename_i index hindex
        split at h
        · cases h
        · rename_i hnew
          exact ⟨f, index, hf, hindex, eq_false_of_ne_true hnew⟩
  · rintro ⟨f, index, hf, hindex, hnew⟩
    rw [enqueue_eq hf hindex hnew (Prod.eta _).symm]

/-- Behind a packet in flight a packet waits. -/
theorem queueOf_enqueue (hr : r.Lines) (hf : r.face? key = some f) (hindex : f.interface = some index)
    (hnew : f.isQueued bytes = false) (hflight : f.inFlight.isSome = true) :
    (r.enqueue key suite bytes).2.queueOf key = f.queue ++ [⟨suite, bytes⟩] := by
  obtain ⟨i, hi, -⟩ := hr.homes key f index hf hindex
  have hface : (r.modifyFace key fun f => { f with queue := f.queue ++ [⟨suite, bytes⟩] }).face? key =
      some { f with queue := f.queue ++ [⟨suite, bytes⟩] } := by
    rw [face?_modifyFace_self, hf]
    rfl
  have hrefused : ({ f with queue := f.queue ++ [⟨suite, bytes⟩] } : Face).release key index i.queue =
      ⟨{ f with queue := f.queue ++ [⟨suite, bytes⟩] }, i.queue, false, []⟩ :=
    Face.release_of_inFlight hflight
  have hreleased := release_eq hface hindex hi
  rw [hrefused] at hreleased
  rw [enqueue_eq hf hindex hnew hreleased, if_neg Bool.false_ne_true, queueOf, face?_released hface,
    if_pos rfl]
  rfl

/-- A face without a packet in flight takes a new one off its queue at once. The packet is dropped if
    it cannot be cut, and otherwise as many of its units go into the ring as there is room for. -/
theorem enqueue_of_idle (hb : r.Balanced) (ha : r.Addressed) (hf : r.face? key = some f)
    (hindex : f.interface = some index) (hnew : f.isQueued bytes = false) (hidle : f.inFlight = none) :
    (r.enqueue key suite bytes).2.queueOf key = [] ∧
      ∀ fragments fragmenter, f.fragmenter.fragment suite bytes = (.ok fragments, fragmenter) →
        r.transmitted (r.enqueue key suite bytes).2 index f.address ++
          (r.enqueue key suite bytes).2.own key index =
            (fragments.getD [bytes]).take (maxQueueLength - (r.units index).length) := by
  obtain ⟨i, hi, -⟩ := hb.homes key f index hf hindex
  have hempty : f.queue = [] := (hb.settled key f index hf hindex).2 hidle
  have hqueued := Step.queued hf hindex ⟨suite, bytes⟩
  have hq := hb.accounted.step hqueued
  have haq : (r.modifyFace key fun f => { f with queue := f.queue ++ [⟨suite, bytes⟩] }).Addressed :=
    ha.of_placed (.modifyFace r key fun _ => rfl)
  have hface : (r.modifyFace key fun f => { f with queue := f.queue ++ [⟨suite, bytes⟩] }).face? key =
      some { f with queue := [⟨suite, bytes⟩] } := by
    rw [face?_modifyFace_self, hf, Option.map_some, hempty]
    rfl
  obtain ⟨sign, m, hstep, htaken, hreleased⟩ := step_release hface hidle hindex hi
  have haccepted : (r.enqueue key suite bytes).1 = .ok true :=
    enqueue_accepts_iff.2 ⟨f, index, hf, hindex, hnew⟩
  rcases enqueue_cases hb key suite bytes with ⟨-, -, -, -, -, hgoes⟩ | ⟨hrejected, -⟩
  · obtain ⟨trace, hsteps, hout⟩ := hreleased.trans hgoes
    obtain ⟨hsent, hnone⟩ := Sign.none_of_taken htaken
    have hfirst := Flow.single hq ⟨_, hface, hindex⟩ hstep (by rintro rfl; cases htaken)
    have hwaits : (r.modifyFace key fun f =>
        { f with queue := f.queue ++ [⟨suite, bytes⟩] }).queueOf key = [⟨suite, bytes⟩] := by
      rw [queueOf, hface]
      rfl
    have hm : m.queueOf key = [] := by
      have hqueue := hfirst.queue
      rw [hwaits] at hqueue
      simpa [htaken, hnone] using hqueue
    obtain ⟨hdone, hring⟩ := outgoing_idle (hq.step hstep) hfirst.stays hm hsteps hout
    refine ⟨hdone, fun fragments fragmenter hcut => ?_⟩
    have htrain := train?_of_cut hstep htaken hface hindex hcut
    have hown := own_of_idle hq hface hindex hidle
    have hloaded : m.own key index =
        (fragments.getD [bytes]).take (maxQueueLength - (r.units index).length) := by
      have hfilled := hfirst.ring
      rw [hown, List.filterMap_cons_none hsent, List.filterMap_cons_some htrain] at hfilled
      exact hfilled.trans (List.append_nil _)
    have htransmitted := transmitted_eq hq haq hface hindex ((Steps.single hstep).trans hsteps)
      fun sign hmem => (List.mem_cons.1 hmem).elim (· ▸ Sign.isOutgoing_of_taken htaken) (hout sign)
    have hsame : r.transmitted (r.enqueue key suite bytes).2 index f.address =
        trace.filterMap (Sign.sent? key) := by
      refine htransmitted.trans ?_
      rw [List.singleton_append, List.filterMap_cons_none hsent]
    rw [hsame, hring, hloaded]
  · exact absurd haccepted hrejected

end

/-- A face accepts a packet just if it does not have it yet. What is accepted is kept if and only if
    it waits behind another, or it can be cut and all of its units find room in the ring. -/
theorem enqueue_kept_iff {r : Relay} (hr : Reachable r) (key : FaceKey) (suite : Suite) (bytes : Bytes) :
    ((r.enqueue key suite bytes).1 = .ok true ↔
      ∃ f index, r.face? key = some f ∧ f.interface = some index ∧ f.isQueued bytes = false) ∧
    ∀ f index, r.face? key = some f → f.interface = some index → f.isQueued bytes = false →
      (r.Kept (r.enqueue key suite bytes).2 key f index ⟨suite, bytes⟩ ↔
        f.inFlight.isSome = true ∨ ∃ fragments fragmenter,
          f.fragmenter.fragment suite bytes = (.ok fragments, fragmenter) ∧
          (fragments.getD [bytes]).length + (r.units index).length ≤ maxQueueLength) := by
  refine ⟨enqueue_accepts_iff, fun f index hf hindex hnew => ?_⟩
  cases hflight : f.inFlight.isSome with
  | true =>
    refine iff_of_true (.inl ?_) (.inl rfl)
    rw [queueOf_enqueue hr.balanced.toLines hf hindex hnew hflight]
    exact List.mem_append_right _ List.mem_cons_self
  | false =>
    obtain ⟨hempty, hgone⟩ := enqueue_of_idle hr.balanced hr.visited.addressed hf hindex hnew
      (Option.not_isSome_iff_eq_none.1 (ne_true_of_eq_false hflight))
    have hoccupied : (r.units index).length ≤ maxQueueLength := by
      obtain ⟨i, hi, -⟩ := hr.balanced.homes key f index hf hindex
      rw [units_of_interface hi]
      exact (hr.balanced.rings i (List.mem_of_getElem? hi)).length_le
    constructor
    · rintro (hwaits | ⟨fragments, fragmenter, hcut, hall⟩)
      · rw [hempty] at hwaits
        cases hwaits
      · have htrain := hgone fragments fragmenter hcut
        rw [hall, eq_comm, List.take_eq_self_iff] at htrain
        exact .inr ⟨fragments, fragmenter, hcut, Nat.add_le_of_le_sub hoccupied htrain⟩
    · rintro (hno | ⟨fragments, fragmenter, hcut, hfits⟩)
      · cases hno
      · refine .inr ⟨fragments, fragmenter, hcut, (hgone fragments fragmenter hcut).trans ?_⟩
        exact List.take_of_length_le (Nat.le_sub_of_add_le hfits)

/-- A packet in 65 fragments is accepted by an idle face, and not kept. -/
theorem longPacket_not_kept :
    (narrow.enqueue ⟨0, 0⟩ longPacket.suite longPacket.bytes).1 = .ok true ∧
      ¬narrow.Kept (narrow.enqueue ⟨0, 0⟩ longPacket.suite longPacket.bytes).2 ⟨0, 0⟩ narrowFace 0
        longPacket := by
  obtain ⟨haccepts, hkept⟩ :=
    enqueue_kept_iff reachable_narrow ⟨0, 0⟩ longPacket.suite longPacket.bytes
  refine ⟨haccepts.2 ⟨narrowFace, 0, rfl, rfl, rfl⟩, fun hall => ?_⟩
  rcases (hkept narrowFace 0 rfl rfl rfl).1 hall with hno | ⟨fragments, fragmenter, hcut, hfits⟩
  · cases hno
  · obtain ⟨pieces, next, hpieces, hlength⟩ := fragment_longPacket
    cases hpieces.symm.trans hcut
    have hroom : pieces.length + 0 ≤ 64 := hfits
    rw [hlength] at hroom
    exact absurd hroom (by decide)

end Relay

end NameRelay
