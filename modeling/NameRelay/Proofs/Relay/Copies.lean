-- SUMMARY: A propagated interest leaves once for every route, not once for every next hop.
import Mathlib.Data.List.Dedup
import NameRelay.Proofs.Relay.Balance
import NameRelay.Proofs.Relay.Handover
import NameRelay.Proofs.Relay.Routed
import NameRelay.Proofs.Relay.Sound

/-!
# Copies

Routes of different lengths may lead the same interest to the same face. A face that has the bytes
queued already does not queue them again, but over an interface that sends at once the first copy is
gone before the second comes. So on an idle relay every route that covers the name sends a copy, and
each next hop gets one copy just if no two of them lead to it.
-/

namespace NameRelay

/-- The face can send a packet whole and at once. -/
structure Face.Ready (f : Face) : Prop where
  inFlight : f.inFlight = none
  queue : f.queue = []
  mtu : f.fragmenter.mtu = none

namespace Face

variable {f : Face} {key : FaceKey} {index : Nat} {ring : Ring Transmission maxQueueLength}

/-- A single packet goes into an empty ring whole. -/
theorem Ready.release_single (h : f.Ready) (key : FaceKey) (index : Nat)
    (hring : ring.Holds []) (p : QueuedPacket) :
    ∃ filled : Ring Transmission maxQueueLength, filled.Holds [⟨some key, f.address, p.bytes⟩] ∧
      ({ f with queue := [p] } : Face).release key index ring =
        ⟨{ f with inFlight := some ⟨p.bytes, 1⟩ }, filled, true, []⟩ := by
  obtain ⟨filled, hpush, hholds⟩ := hring.push?_of_lt (by decide) ⟨some key, f.address, p.bytes⟩
  refine ⟨filled, hholds, ?_⟩
  have hwhole : f.fragmenter.fragment p.suite p.bytes = (.ok none, f.fragmenter) := by
    rw [Fragmenter.fragment, h.mtu]
  simp [Face.release, releaseFrom, hwhole, units, Ring.pushAll, hpush, h.inFlight, h.queue]

/-- Without a packet there is nothing to release. -/
theorem Ready.release (h : f.Ready) (ring : Ring Transmission maxQueueLength) :
    f.release key index ring = ⟨f, ring, false, []⟩ := by
  obtain ⟨hflight, hqueue, -⟩ := h
  cases f
  simp_all [Face.release, releaseFrom]

end Face

namespace Relay

/-! ## Idle relays -/

/-- Interfaces send at once and whole packets, and nothing waits at any. -/
structure Idle (r : Relay) : Prop where
  unpaced : ∀ i ∈ r.interfaces, i.pacing = none ∧ i.mtu = 0
  empty : ∀ i ∈ r.interfaces, i.queue.isEmpty = true

section

variable {r s : Relay} {key : FaceKey} {f : Face} {index : Nat} {i : Interface}

theorem Idle.units (hb : r.Balanced) (h : r.Idle) (index : Nat) : r.units index = [] := by
  cases hi : r.interfaces[index]? with
  | none => rw [Relay.units, hi, Option.map_none, Option.getD_none]
  | some i =>
    have hmem := List.mem_of_getElem? hi
    rw [units_of_interface hi]
    exact (hb.rings i hmem).isEmpty_iff.1 (h.empty i hmem)

/-- On an idle relay all faces of interfaces are ready. -/
theorem Idle.ready (hb : r.Balanced) (h : r.Idle) (hf : r.face? key = some f)
    (hindex : f.interface = some index) : f.Ready := by
  obtain ⟨i, hi, hmtu⟩ := hb.homes key f index hf hindex
  obtain ⟨hcounts, hwaits⟩ := hb.settled key f index hf hindex
  have hnone : r.unitsOf key index = 0 := by rw [unitsOf, h.units hb, List.countP_nil]
  have hflight : f.inFlight = none := by
    rw [hnone] at hcounts
    cases hp : f.inFlight with
    | none => rfl
    | some p => exact absurd ((Face.counts_of_some hp).1 hcounts).2 (Nat.lt_irrefl 0)
  refine ⟨hflight, hwaits hflight, ?_⟩
  rw [hmtu, (h.unpaced i (List.mem_of_getElem? hi)).2]
  rfl

theorem drain_of_some (h : r.sendNext index = some s) : r.drain index = s.drain index := by
  rw [drain]
  split
  · rename_i hs
    cases h.symm.trans hs
    rfl
  · rename_i hs
    cases h.symm.trans hs

theorem drain_of_none (h : r.sendNext index = none) : r.drain index = r := by
  rw [drain]
  split
  · rename_i hs
    cases h.symm.trans hs
  · rfl

/-- The last unit of the packet in flight has left, and no packet waits behind it. -/
theorem settle_last (hi : r.interfaces[index]? = some i) {bytes : Bytes} (hready : f.Ready)
    (hf : r.face? key = some { f with inFlight := some ⟨bytes, 1⟩ })
    (hindex : f.interface = some index) :
    r.settle key =
      (r.modifyFace key fun _ => f).released key index i ⟨f, i.queue, false, []⟩ := by
  have hsettled : ({ f with inFlight := some ⟨bytes, 1⟩ } : Face).settle = f := by
    have hflight := hready.inFlight
    cases f
    simp_all [Face.settle]
  have hface : (r.modifyFace key fun _ => f).face? key = some f := by
    rw [face?_modifyFace_self, hf]
    rfl
  rw [settle, hf]
  simp only [hsettled, hready.inFlight, Option.isSome_some, Option.isNone_none, Bool.and_self,
    if_true]
  rw [release_eq (i := i) hface hindex hi, hready.release]

/-- The last unit of a ring leaves, and its face is ready again. -/
theorem drain_single (hi : r.interfaces[index]? = some i) {destination : FaceAddress} {bytes : Bytes}
    (hring : i.queue.Holds [⟨some key, destination, bytes⟩]) (hready : f.Ready)
    (hf : r.face? key = some { f with inFlight := some ⟨bytes, 1⟩ })
    (hindex : f.interface = some index) :
    (r.drain index).host.effects = r.host.effects ++ [.send index destination bytes] ∧
      ∀ k, (r.drain index).face? k = if k = key then some f else r.face? k := by
  obtain ⟨queue, hpop, hempty⟩ := hring.pop?_cons
  let popped : Relay := ({ r with interfaces := r.interfaces.set index { i with queue } } :
    Relay).emit (.send index destination bytes)
  have hlt : index < r.interfaces.length := (List.getElem?_eq_some_iff.1 hi).1
  have hi' : popped.interfaces[index]? = some { i with queue } := List.getElem?_set_self hlt
  have hf' : popped.face? key = some { f with inFlight := some ⟨bytes, 1⟩ } := hf
  have hlt' : index < popped.interfaces.length := hlt.trans_eq (List.length_set ..).symm
  let left := (popped.modifyFace key fun _ => f).released key index { i with queue }
    ⟨f, queue, false, []⟩
  have hnext : r.sendNext index = some left := by
    rw [sendNext, hi]
    simp only [hpop]
    exact congrArg some (settle_last hi' hready hf' hindex)
  have hlast : left.sendNext index = none := by
    have hi'' : left.interfaces[index]? = some { i with queue } := List.getElem?_set_self hlt'
    rw [sendNext, hi'']
    simp only [hempty.pop?_nil]
  have hdrain : r.drain index = left := by
    rw [drain_of_some hnext, drain_of_none hlast]
  rw [hdrain]
  refine ⟨rfl, fun k => ?_⟩
  have hpopped : (popped.modifyFace key fun _ => f).face? key = some f := by
    rw [face?_modifyFace_self, hf']
    rfl
  rw [face?_released hpopped, face?_modifyFace]
  split
  · rfl
  · rfl

/-- While no packet is in flight all rings are empty. -/
theorem empty_of_ready (hb : r.Balanced) (hready : ∀ k g j, r.face? k = some g →
    g.interface = some j → g.inFlight = none) : ∀ i ∈ r.interfaces, i.queue.isEmpty = true := by
  intro i hmem
  obtain ⟨index, hi⟩ := List.mem_iff_getElem?.1 hmem
  rw [(hb.rings i hmem).isEmpty_iff, ← units_of_interface hi]
  refine List.eq_nil_iff_forall_not_mem.2 fun unit hunit => ?_
  obtain ⟨k, g, hk, hg, hindex, -⟩ := hb.owned index unit hunit
  have hcounts := (Face.counts_of_none (hready k g index hg hindex)).1
    (hb.settled k g index hg hindex).1
  exact List.countP_eq_zero.1 hcounts unit hunit (beq_iff_eq.2 hk)

/-- Transmission leaves interfaces as fast as they were. -/
theorem unpaced_of_still (h : r.Idle) (hs : s.still = r.still) :
    ∀ i ∈ s.interfaces, i.pacing = none ∧ i.mtu = 0 := by
  intro i hi
  have hmem : i.atRest ∈ s.interfaces.map Interface.atRest := List.mem_map_of_mem hi
  rw [interfaces_of_still hs] at hmem
  obtain ⟨j, hj, hsame⟩ := List.mem_map.1 hmem
  obtain ⟨hpacing, hmtu⟩ := h.unpaced j hj
  exact ⟨(congrArg Interface.pacing hsame.symm :).trans hpacing,
    (congrArg Interface.mtu hsame.symm :).trans hmtu⟩

/-! ## Sending on an idle relay -/

/-- From `r` to `s` these effects were added, and the relay is idle again, with the same faces. -/
structure Sends (out : List Effect) (r s : Relay) : Prop where
  effects : s.host.effects = r.host.effects ++ out
  faces : ∀ k, s.face? k = r.face? k
  balanced : s.Balanced
  idle : s.Idle

theorem Sends.trans {t : Relay} {out more : List Effect} (h : Sends out r s) (h' : Sends more s t) :
    Sends (out ++ more) r t where
  effects := by rw [h'.effects, h.effects, List.append_assoc]
  faces k := (h'.faces k).trans (h.faces k)
  balanced := h'.balanced
  idle := h'.idle

/-- Queues, interfaces and faces are the same. -/
theorem Sends.of_same {out : List Effect} (hb : r.Balanced) (hidle : r.Idle)
    (heffects : s.host.effects = r.host.effects ++ out) (hfaces : s.faces = r.faces)
    (hinterfaces : s.interfaces = r.interfaces) : Sends out r s where
  effects := heffects
  faces k := by rw [face?, hfaces]; rfl
  balanced := hb.of_queues (by rw [queues, hfaces, hinterfaces]; rfl)
  idle := ⟨by rw [hinterfaces]; exact hidle.unpaced, by rw [hinterfaces]; exact hidle.empty⟩

theorem Sends.note {out : List Effect} (h : Sends out r s) (deed : Deed) :
    Sends out r (s.note deed) :=
  ⟨h.effects, h.faces, h.balanced.of_queues rfl, h.idle.unpaced, h.idle.empty⟩

/-- The relay that has a packet of a face in flight, with its one unit in the ring. -/
def loaded (r : Relay) (key : FaceKey) (f : Face) (index : Nat) (i : Interface) (p : QueuedPacket)
    (filled : Ring Transmission maxQueueLength) : Relay :=
  (r.modifyFace key fun f => { f with queue := f.queue ++ [p] }).released key index i
    ⟨{ f with inFlight := some ⟨p.bytes, 1⟩ }, filled, true, []⟩

section

variable {p : QueuedPacket} {filled : Ring Transmission maxQueueLength}

theorem face?_queued (hf : r.face? key = some f) (hready : f.Ready) (p : QueuedPacket) :
    (r.modifyFace key fun f => { f with queue := f.queue ++ [p] }).face? key =
      some { f with queue := [p] } := by
  rw [face?_modifyFace_self, hf, Option.map_some, hready.queue]
  rfl

theorem face?_loaded (hf : r.face? key = some f) (hready : f.Ready) (k : FaceKey) :
    (r.loaded key f index i p filled).face? k =
      if k = key then some { f with inFlight := some ⟨p.bytes, 1⟩ } else r.face? k := by
  rw [loaded, face?_released (face?_queued hf hready p), face?_modifyFace]
  split
  · rfl
  · rfl

theorem interface_loaded (hi : r.interfaces[index]? = some i) :
    (r.loaded key f index i p filled).interfaces[index]? = some { i with queue := filled } :=
  List.getElem?_set_self (List.getElem?_eq_some_iff.1 hi).1

/-- A ready face of an interface that is not paced has its packet loaded and the ring drained. -/
theorem enqueue_of_ready (hf : r.face? key = some f) (hready : f.Ready)
    (hindex : f.interface = some index) (hi : r.interfaces[index]? = some i)
    (hcalm : i.draining = false) (hpacing : i.pacing = none) (hring : i.queue.Holds [])
    (suite : Suite) (bytes : Bytes) :
    ∃ filled : Ring Transmission maxQueueLength, filled.Holds [⟨some key, f.address, bytes⟩] ∧
      r.enqueue key suite bytes =
        (.ok true, (r.loaded key f index i ⟨suite, bytes⟩ filled).drain index) := by
  obtain ⟨filled, hfilled, hout⟩ := hready.release_single key index hring ⟨suite, bytes⟩
  refine ⟨filled, hfilled, ?_⟩
  have hrelease : (r.modifyFace key fun f =>
      { f with queue := f.queue ++ [⟨suite, bytes⟩] }).release key =
        (true, r.loaded key f index i ⟨suite, bytes⟩ filled) := by
    rw [release_eq (face?_queued hf hready _) hindex hi, hout, loaded]
  have hkick : (r.loaded key f index i ⟨suite, bytes⟩ filled).kick index =
      (r.loaded key f index i ⟨suite, bytes⟩ filled).drain index := by
    have hsome : filled.isEmpty = false :=
      eq_false_of_ne_true fun hnone => by cases hfilled.isEmpty_iff.1 hnone
    exact kick_of_unpaced (interface_loaded hi) hcalm hsome hpacing
  have hnew : ¬f.isQueued bytes = true := by simp [Face.isQueued, hready.inFlight, hready.queue]
  rw [enqueue, hf]
  simp only [hindex]
  rw [if_neg hnew]
  split
  · rename_i t ht
    cases hrelease.symm.trans ht
    rw [hkick]
  · rename_i t ht
    cases hrelease.symm.trans ht

end

/-- A packet for a face of an idle relay goes out at once. -/
theorem enqueue_idle (hb : r.Balanced) (hidle : r.Idle) (hf : r.face? key = some f)
    (hindex : f.interface = some index) (suite : Suite) (bytes : Bytes) :
    (r.enqueue key suite bytes).1 = .ok true ∧
      Sends [.send index f.address bytes] r (r.enqueue key suite bytes).2 := by
  have hready := hidle.ready hb hf hindex
  obtain ⟨i, hi, -⟩ := hb.homes key f index hf hindex
  have hmem := List.mem_of_getElem? hi
  have hring := hb.rings i hmem
  rw [← units_of_interface hi, hidle.units hb] at hring
  obtain ⟨filled, hfilled, henqueue⟩ :=
    enqueue_of_ready hf hready hindex hi (hb.calm i hmem) (hidle.unpaced i hmem).1 hring suite bytes
  have hbalanced := hb.enqueue key suite bytes
  have hstill := enqueue_still r key suite bytes
  rw [henqueue] at hbalanced hstill ⊢
  have hflight : (r.loaded key f index i ⟨suite, bytes⟩ filled).face? key =
      some { f with inFlight := some ⟨bytes, 1⟩ } := by rw [face?_loaded hf hready, if_pos rfl]
  obtain ⟨heffects, hfaces⟩ := drain_single (interface_loaded hi) hfilled hready hflight hindex
  have hsame (k : FaceKey) :
      ((r.loaded key f index i ⟨suite, bytes⟩ filled).drain index).face? k = r.face? k := by
    rw [hfaces, face?_loaded hf hready]
    split
    · rename_i hk
      rw [hk, hf]
    · rfl
  refine ⟨rfl, heffects, hsame, hbalanced, unpaced_of_still hidle hstill,
    empty_of_ready hbalanced fun k g j hg hj => ?_⟩
  rw [hsame] at hg
  exact (hidle.ready hb hg hj).inFlight

end

/-! ## Copies -/

/-- What a destination gets of an interest: it is transmitted to a neighbour, and the local
    application is shown it. -/
def copy? (r : Relay) (p : Packet) (d : Destination) : Option Effect :=
  p.name?.bind fun name =>
    match d with
    | .tap => some (.tap name p.bytes)
    | .face key => (r.face? key).bind fun f =>
      if f.isLocal then some (.tap name p.bytes)
      else f.interface.map fun index => .send index f.address p.bytes

theorem isRecord_of_copy? {r : Relay} {p : Packet} {d : Destination} {effect : Effect}
    (h : r.copy? p d = some effect) : effect.isRecord = false := by
  obtain ⟨name, -, h⟩ := Option.bind_eq_some_iff.1 h
  cases d with
  | tap =>
    cases h
    rfl
  | face key =>
    obtain ⟨f, -, h⟩ := Option.bind_eq_some_iff.1 h
    split at h
    · cases h
      rfl
    · obtain ⟨index, -, rfl⟩ := Option.map_eq_some_iff.1 h
      rfl

theorem copy?_face {r : Relay} {p : Packet} {name : Name} (hname : p.name? = some name)
    {key : FaceKey} {f : Face} (hf : r.face? key = some f) : r.copy? p (.face key) =
      if f.isLocal then some (.tap name p.bytes)
      else f.interface.map fun index => .send index f.address p.bytes := by
  simp only [copy?, hname, hf, Option.bind_some]

theorem copy?_of_faces {r s : Relay} (h : ∀ k, s.face? k = r.face? k) : s.copy? = r.copy? := by
  funext p d
  simp only [copy?, h]

/-- The destination can be reached: it is the application, or a face that leads somewhere. -/
def Leadable (r : Relay) (d : Destination) : Prop :=
  ∀ key, d = .face key → ∃ f, r.face? key = some f ∧ f.Anchored

section

variable {r : Relay} {p : Packet} {name : Name}

/-- On an idle relay a face gets an interest, unless it came from there. -/
theorem handOver_face_idle (hb : r.Balanced) (hidle : r.Idle) (hname : p.name? = some name)
    {origin key : FaceKey} {reflects : Bool} (hgo : mayGo origin reflects (.face key) = true)
    {f : Face} (hf : r.face? key = some f) (hanchored : f.Anchored) :
    ∃ effect, (r.handOver p name origin reflects (.face key)).1 = 1 ∧
      Sends [effect] r (r.handOver p name origin reflects (.face key)).2 ∧
      r.copy? p (.face key) = some effect := by
  have hcopy := copy?_face (r := r) hname hf
  have hback : ¬(key = origin ∧ (!reflects) = true) := by
    simpa [mayGo, Classical.or_iff_not_imp_left] using hgo
  have hf' : (r.note (.handed p (.face key))).face? key = some f := hf
  rw [handOver, if_neg hback]
  simp only [hf', Option.any_some]
  split
  · rename_i hlocal
    rw [if_pos hlocal] at hcopy
    exact ⟨.tap name p.bytes, rfl, .of_same hb hidle rfl rfl rfl, hcopy⟩
  · rename_i hremote
    obtain ⟨index, hindex⟩ : ∃ index, f.interface = some index := by
      cases hinterface : f.interface with
      | none => exact absurd (hanchored hinterface) hremote
      | some index => exact ⟨index, rfl⟩
    rw [if_neg hremote, hindex, Option.map_some] at hcopy
    have hnoted : Sends [] r (r.note (.handed p (.face key))) :=
      .of_same hb hidle (List.append_nil _).symm rfl rfl
    obtain ⟨htaken, hsent⟩ := enqueue_idle hnoted.balanced hnoted.idle hf' hindex p.suite p.bytes
    split
    · rename_i queued s hs
      rw [hs] at htaken hsent
      cases htaken
      exact ⟨_, rfl, hnoted.trans hsent, hcopy⟩
    · rename_i error s hs
      rw [hs] at htaken
      cases htaken

/-- On an idle relay a destination that an interest may go to gets a copy of it. -/
theorem handOver_idle (hb : r.Balanced) (hidle : r.Idle) (hname : p.name? = some name)
    (origin : FaceKey) (reflects : Bool) {d : Destination} (hd : r.Leadable d) :
    ∃ out, (r.handOver p name origin reflects d).1 = out.length ∧
      Sends out r (r.handOver p name origin reflects d).2 ∧
      out.map some = ([d].filter (mayGo origin reflects)).map (r.copy? p) := by
  cases hgo : mayGo origin reflects d with
  | false =>
    obtain ⟨key, rfl⟩ : ∃ key, d = .face key := by
      cases d with
      | tap => cases hgo
      | face key => exact ⟨key, rfl⟩
    have hback : key = origin ∧ (!reflects) = true := by simpa [mayGo] using hgo
    have hnothing : r.handOver p name origin reflects (.face key) = (0, r) := by
      rw [handOver, if_pos hback]
    rw [hnothing, List.filter_singleton, hgo]
    exact ⟨[], rfl, .of_same hb hidle (List.append_nil _).symm rfl rfl, rfl⟩
  | true =>
    obtain ⟨effect, hone, hsends, hcopy⟩ : ∃ effect,
        (r.handOver p name origin reflects d).1 = 1 ∧
          Sends [effect] r (r.handOver p name origin reflects d).2 ∧
          r.copy? p d = some effect := by
      cases d with
      | tap =>
        refine ⟨.tap name p.bytes, rfl, .of_same hb hidle rfl rfl rfl, ?_⟩
        rw [copy?, hname]
        rfl
      | face key =>
        obtain ⟨f, hf, hanchored⟩ := hd key rfl
        exact handOver_face_idle hb hidle hname hgo hf hanchored
    refine ⟨[effect], hone, hsends, ?_⟩
    rw [List.filter_cons_of_pos hgo, List.filter_nil, List.map_singleton, List.map_singleton, hcopy]

theorem handOverAll_idle (hb : r.Balanced) (hidle : r.Idle) (hname : p.name? = some name)
    (origin : FaceKey) (reflects : Bool) {ds : List Destination} (hds : ∀ d ∈ ds, r.Leadable d) :
    ∃ out, (r.handOverAll p name origin reflects ds).1 = out.length ∧
      Sends out r (r.handOverAll p name origin reflects ds).2 ∧
      out.map some = (ds.filter (mayGo origin reflects)).map (r.copy? p) := by
  induction ds generalizing r with
  | nil => exact ⟨[], rfl, .of_same hb hidle (List.append_nil _).symm rfl rfl, rfl⟩
  | cons d ds ih =>
    obtain ⟨one, hone, hfirst, hcopy⟩ := handOver_idle hb hidle hname origin reflects
      (hds d List.mem_cons_self)
    have hrest : ∀ d' ∈ ds, (r.handOver p name origin reflects d).2.Leadable d' := by
      intro d' hd' key hkey
      rw [hfirst.faces]
      exact hds d' (List.mem_cons_of_mem d hd') key hkey
    obtain ⟨more, hmore, hthen, hcopies⟩ := ih hfirst.balanced hfirst.idle hrest
    refine ⟨one ++ more, ?_, hfirst.trans hthen, ?_⟩
    · rw [List.length_append, ← hone, ← hmore]
      rfl
    · rw [List.map_append, hcopy, hcopies, copy?_of_faces hfirst.faces, ← List.map_append,
        ← List.filter_append, List.singleton_append]

end

/-! ## Propagating -/

/-- What went out between two states: all effects but records. -/
def sentSince (r s : Relay) : List Effect :=
  (s.host.effects.drop r.host.effects.length).filter fun effect => !effect.isRecord

/-- Each next hop got one copy of the interest, and nobody else got anything. -/
def OneCopyEach (r : Relay) (e : PendingInterest) (out : List Effect) : Prop :=
  (out.map some).Perm ((r.nextHops e).dedup.map (r.copy? e.packet))

section

variable {r : Relay} {key : InterestKey} {e : PendingInterest}

/-- In a run every route leads to the application, or to a face that leads somewhere. -/
theorem leadable_of_mem_covering (hr : Visited r) {name : Name} {d : Destination}
    (hd : d ∈ (r.routes.covering name).map (·.destination)) : r.Leadable d := by
  obtain ⟨route, hroute, rfl⟩ := List.mem_map.1 hd
  intro k hk
  have hface := hr.routed route (List.mem_filter.1 hroute).1 k hk
  obtain ⟨f, hf⟩ := Slots.contains_iff.1 hface
  exact ⟨f, hf, hr.sound.anchored k f hf⟩

theorem sentSince_of_append {s : Relay} {out : List Effect} (record : LogRecord)
    (h : s.host.effects = r.host.effects ++ (out ++ [.log record]))
    (hout : ∀ effect ∈ out, effect.isRecord = false) : r.sentSince s = out := by
  rw [sentSince, h, List.drop_left, List.filter_append,
    List.filter_eq_self.2 fun effect heffect => by rw [hout effect heffect]; rfl]
  exact List.append_nil out

/-- Propagating an interest on an idle relay sends one copy for every route to a next hop. -/
theorem propagate_idle (hr : Visited r) (hb : r.Balanced) (hidle : r.Idle)
    (he : r.pending.get? key = some e) :
    ∃ out, (r.propagate key).1 = out.length ∧ r.sentSince (r.propagate key).2 = out ∧
      out.map some = (r.nextHops e).map (r.copy? e.packet) := by
  unfold propagate nextHops
  rw [he]
  dsimp only
  cases hname : e.packet.name? with
  | none =>
    refine ⟨[], rfl, ?_, rfl⟩
    exact congrArg (List.filter _) List.drop_length
  | some name =>
    dsimp only
    let tried : Relay := { r with
      pending := r.pending.modify key fun e => { e with lastAttempt := r.now } }
    have htried : Sends [] r tried := .of_same hb hidle (List.append_nil _).symm rfl rfl
    have hleads : ∀ d ∈ (r.routes.covering name).map (·.destination), tried.Leadable d :=
      fun d hd => leadable_of_mem_covering (r := r) hr hd
    obtain ⟨out, hcount, hsends, hcopies⟩ := handOverAll_idle htried.balanced htried.idle hname
      e.origin ((r.face? e.origin).any (·.flags.reflects)) hleads
    have hnews (t : Relay) (text : String) (ht : Sends out tried t) :
        r.sentSince (t.log .trace text) = out := by
      refine sentSince_of_append ⟨.trace, text⟩ ?_ fun effect heffect => ?_
      · rw [← List.append_assoc]
        exact congrArg (· ++ [Effect.log ⟨.trace, text⟩]) ht.effects
      · have hmem : some effect ∈ out.map some := List.mem_map_of_mem heffect
        rw [hcopies] at hmem
        obtain ⟨d, -, hd⟩ := List.mem_map.1 hmem
        exact isRecord_of_copy? hd
    exact ⟨out, hcount, hnews (note _ _) _ (hsends.note _), hcopies⟩

/-- On an idle relay a propagated interest leaves once for every route to a next hop, and the answer
    is how many copies left. So each next hop gets one copy just if no two routes lead to the same. -/
theorem propagate_copies (hr : Reachable r) (hidle : r.Idle) (he : r.pending.get? key = some e) :
    (r.sentSince (r.propagate key).2).map some = (r.nextHops e).map (r.copy? e.packet) ∧
      (r.propagate key).1 = (r.nextHops e).length ∧
      (r.OneCopyEach e (r.sentSince (r.propagate key).2) ↔ (r.nextHops e).Nodup) := by
  obtain ⟨out, hcount, hsent, hcopies⟩ := propagate_idle hr.visited hr.balanced hidle he
  rw [hsent, hcount]
  refine ⟨hcopies, ?_, ?_⟩
  · rw [← List.length_map some, hcopies, List.length_map]
  · rw [OneCopyEach, hcopies]
    constructor
    · intro hperm
      have hlength := hperm.length_eq
      rw [List.length_map, List.length_map] at hlength
      exact List.dedup_eq_self.1 ((List.dedup_sublist _).eq_of_length hlength.symm)
    · intro hnodup
      rw [List.dedup_eq_self.2 hnodup]

end

/-- An interest for `/a/b` waits, and then `/a` and `/a/b` are both routed to one neighbour. -/
def overlapping : Relay :=
  (Relay.fresh (Host.fresh ⟨0⟩ (fun _ => none) fun _ => true)).performAll
    [.addInterface (.path "own") 0 {},
      .receive 0 [5, 14, 7, 6, 8, 1, 97, 8, 1, 98, 10, 4, 0, 0, 0, 1] (.path "first"),
      .addFace 0 (.path "next") {}, .addRoute ⟨.ndn, [[97]], none, .none⟩ .ndn (.face ⟨1, 0⟩),
      .addRoute ⟨.ndn, [[97], [98]], none, .none⟩ .ndn (.face ⟨1, 0⟩)]

/-- The neighbour gets the interest twice. -/
theorem overlapping_copies : overlapping.Idle ∧ ∃ e, overlapping.pending.get? ⟨0, 0⟩ = some e ∧
    overlapping.nextHops e = [.face ⟨1, 0⟩, .face ⟨1, 0⟩] ∧ (overlapping.propagate ⟨0, 0⟩).1 = 2 ∧
    ¬overlapping.OneCopyEach e (overlapping.sentSince (overlapping.propagate ⟨0, 0⟩).2) := by
  have hreached : Reachable overlapping := (Reachable.fresh _ _ _).performAll _
  have hidle : overlapping.Idle := ⟨by decide +kernel, by decide +kernel⟩
  have hhops : (overlapping.pending.get? ⟨0, 0⟩).map overlapping.nextHops =
      some [.face ⟨1, 0⟩, .face ⟨1, 0⟩] := by decide +kernel
  obtain ⟨e, he, htwice⟩ := Option.map_eq_some_iff.1 hhops
  obtain ⟨-, hcount, hone⟩ := propagate_copies hreached hidle he
  rw [htwice] at hcount hone
  exact ⟨hidle, e, he, htwice, hcount, fun heach => absurd (hone.1 heach) (by decide)⟩

end Relay

end NameRelay
