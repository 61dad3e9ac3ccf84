-- SUMMARY: What happens to packets and units, step by step, within calls and from call to call.
import NameRelay.Proofs.Relay.Balance

/-!
# Steps

A call may queue a packet, release it, give its units away and release the packet behind it, all in
one go. A step is the smallest part of that: one packet is queued or taken off a queue, one unit is
given away, one face or interface comes or goes. Each leaves a sign, and the signs of a run are its
trace. Every run is made of steps, so what a step preserves, as far as its sign tells, a run
preserves.
-/

namespace NameRelay

/-- Whether an effect is a transmission. -/
def Effect.isSend : Effect → Bool
  | .send _ _ _ => true
  | _ => false

namespace Relay

/-! ## Signs -/

/-- A packet that a face took off its queue, the units it was cut into, and for how many units there
    was room in the ring. -/
structure Train where
  packet : QueuedPacket
  units : List Bytes
  room : Nat

/-- The units that went into the ring. -/
def Train.loaded (t : Train) : List Bytes := t.units.take t.room

/-- What is seen of a step. -/
inductive Sign where
  | added (key : FaceKey)
  | removed (key : FaceKey)
  /-- An interface was added. -/
  | opened
  | queued (key : FaceKey) (packet : QueuedPacket)
  /-- A packet cannot be cut, and is dropped. -/
  | uncut (key : FaceKey) (packet : QueuedPacket)
  | released (key : FaceKey) (train : Train)
  /-- A unit was given away by an interface. -/
  | sent (index : Nat) (unit : Transmission)

/-- The face whose outbox the step is about. -/
def Sign.face? : Sign → Option FaceKey
  | queued key _ | uncut key _ | released key _ => some key
  | sent _ unit => unit.face
  | added _ | removed _ | opened => none

/-- Whether the sign tells of packets that were queued before. -/
def Sign.isOutgoing : Sign → Bool
  | uncut _ _ | released _ _ | sent _ _ => true
  | _ => false

/-- The packet that the sign tells to have been taken off the queue of this face. -/
def Sign.taken? (key : FaceKey) : Sign → Option QueuedPacket
  | uncut k p => if k = key then some p else none
  | released k train => if k = key then some train.packet else none
  | _ => none

theorem Sign.isOutgoing_of_taken {sign : Sign} {key : FaceKey} {p : QueuedPacket}
    (h : sign.taken? key = some p) : sign.isOutgoing = true := by
  cases sign with
  | uncut | released | sent => rfl
  | added | removed | opened | queued => cases h

/-- What was transmitted. -/
def sends (r : Relay) : List Effect := r.host.effects.filter Effect.isSend

/-- The effect that a sign tells of. -/
def Sign.effect? : Sign → Option Effect
  | sent index unit => some (.send index unit.destination unit.bytes)
  | _ => none

/-! ## Steps -/

/-- The smallest things that happen to faces and rings. -/
inductive Step : Relay → Sign → Relay → Prop where
  | added {r : Relay} {f : Face} (hflight : f.inFlight = none) (hqueue : f.queue = [])
      (hhome : ∀ index, f.interface = some index →
        ∃ i, r.interfaces[index]? = some i ∧ f.fragmenter.mtu = (Fragmenter.ofMtu i.mtu).mtu) :
      Step r (.added (r.faces.insert f).1) { r with faces := (r.faces.insert f).2 }
  | removed {r : Relay} {key : FaceKey} {f : Face} (hf : r.face? key = some f) :
      Step r (.removed key) (r.removeFace key).2
  | opened (r : Relay) (address : FaceAddress) (mtu : Nat) (flags : FaceFlags) :
      Step r .opened { r with interfaces := r.interfaces ++ [.fresh address mtu flags] }
  | queued {r : Relay} {key : FaceKey} {f : Face} {index : Nat} (hf : r.face? key = some f)
      (hindex : f.interface = some index) (p : QueuedPacket) :
      Step r (.queued key p) (r.modifyFace key fun f => { f with queue := f.queue ++ [p] })
  | uncut {r : Relay} {key : FaceKey} {f : Face} {index : Nat} {p : QueuedPacket}
      {rest : List QueuedPacket} {e : EncodeError} {fragmenter : Fragmenter}
      (hf : r.face? key = some f) (hindex : f.interface = some index) (hidle : f.inFlight = none)
      (hqueue : f.queue = p :: rest)
      (hcut : f.fragmenter.fragment p.suite p.bytes = (.error e, fragmenter)) :
      Step r (.uncut key p) (r.modifyFace key fun _ => { f with queue := rest, fragmenter })
  | released {r : Relay} {key : FaceKey} {f : Face} {index : Nat} {i : Interface} {p : QueuedPacket}
      {rest : List QueuedPacket} {fragments : Option (List Bytes)} {fragmenter : Fragmenter}
      (hf : r.face? key = some f) (hindex : f.interface = some index)
      (hi : r.interfaces[index]? = some i) (hidle : f.inFlight = none)
      (hqueue : f.queue = p :: rest)
      (hcut : f.fragmenter.fragment p.suite p.bytes = (.ok fragments, fragmenter)) :
      Step r (.released key ⟨p, fragments.getD [p.bytes], maxQueueLength - (r.units index).length⟩)
        (r.released key index i (f.launch fragmenter rest p.bytes (f.units key p.bytes fragments)
          i.queue))
  | sent {r : Relay} {key : FaceKey} {f : Face} {index : Nat} {i : Interface} {unit : Transmission}
      {queue : Ring Transmission maxQueueLength} (hf : r.face? key = some f)
      (hi : r.interfaces[index]? = some i) (hpop : i.queue.pop? = some (unit, queue))
      (hkey : unit.face = some key) :
      Step r (.sent index unit) (r.sent key f index i queue unit)

/-- Steps lead from one state to another and leave these signs, and meanwhile other things happen
    that touch neither queues nor rings. -/
inductive Steps : Relay → List Sign → Relay → Prop where
  | refl (r : Relay) : Steps r [] r
  | quiet {r s t : Relay} {trace : List Sign} (h : Steps r trace s) (hqueues : t.queues = s.queues)
      (hsends : t.sends = s.sends) : Steps r trace t
  | tail {r s t : Relay} {trace : List Sign} {sign : Sign} (h : Steps r trace s)
      (hstep : Step s sign t) : Steps r (trace ++ [sign]) t

namespace Steps

variable {r s t : Relay} {trace more : List Sign} {sign : Sign}

theorem single (h : Step r sign s) : Steps r [sign] s := .tail (.refl r) h

theorem trans (h : Steps r trace s) (h' : Steps s more t) : Steps r (trace ++ more) t := by
  induction h' with
  | refl => rwa [List.append_nil]
  | quiet _ hqueues hsends ih => exact ih.quiet hqueues hsends
  | tail _ hstep ih =>
    rw [← List.append_assoc]
    exact ih.tail hstep

/-- A run may be taken apart at every sign. -/
theorem split (h : Steps r trace s) {before after : List Sign}
    (htrace : trace = before ++ sign :: after) :
    ∃ u v, Steps r before u ∧ Step u sign v ∧ Steps v after s := by
  induction h generalizing after with
  | refl => simp at htrace
  | quiet _ hqueues hsends ih =>
    obtain ⟨u, v, hbefore, hstep, hafter⟩ := ih htrace
    exact ⟨u, v, hbefore, hstep, hafter.quiet hqueues hsends⟩
  | @tail m t init last h hstep ih =>
    rcases List.eq_nil_or_concat after with rfl | ⟨rest, final, rfl⟩
    · obtain ⟨rfl, hlast⟩ := List.append_inj' htrace rfl
      cases hlast
      exact ⟨m, t, h, hstep, .refl t⟩
    · rw [List.concat_eq_append, ← List.cons_append, ← List.append_assoc] at htrace
      obtain ⟨rfl, hlast⟩ := List.append_inj' htrace rfl
      cases hlast
      obtain ⟨u, v, hbefore, hfirst, hafter⟩ := ih rfl
      rw [List.concat_eq_append]
      exact ⟨u, v, hbefore, hfirst, hafter.tail hstep⟩

end Steps

/-- Steps lead from one state to the other, and all of them are about packets queued before. -/
def Outgoing (r s : Relay) : Prop :=
  ∃ trace, Steps r trace s ∧ ∀ sign ∈ trace, sign.isOutgoing = true

namespace Outgoing

variable {r s t : Relay} {sign : Sign}

theorem quiet (hqueues : s.queues = r.queues) (hsends : s.sends = r.sends) : Outgoing r s :=
  ⟨[], (Steps.refl r).quiet hqueues hsends, fun _ hmem => by cases hmem⟩

theorem refl (r : Relay) : Outgoing r r := quiet rfl rfl

theorem single (h : Step r sign s) (hsign : sign.isOutgoing = true) : Outgoing r s := by
  refine ⟨[sign], .single h, fun other hmem => ?_⟩
  rwa [List.mem_singleton.1 hmem]

theorem trans (h : Outgoing r s) (h' : Outgoing s t) : Outgoing r t := by
  obtain ⟨trace, hsteps, hall⟩ := h
  obtain ⟨more, hsteps', hall'⟩ := h'
  refine ⟨trace ++ more, hsteps.trans hsteps', fun sign hmem => ?_⟩
  exact (List.mem_append.1 hmem).elim (hall sign) (hall' sign)

end Outgoing

/-! ## Releasing -/

theorem sends_logAll (r : Relay) (records : List LogRecord) :
    (r.logAll records).sends = r.sends := by
  induction records generalizing r with
  | nil => rfl
  | cons record records ih =>
    refine (ih _).trans ?_
    simp [sends, emit, Host.emit, List.filter_append, Effect.isSend]

/-- Only the face and the ring are kept of a release. -/
theorem queues_released_congr (r : Relay) (key : FaceKey) (index : Nat) (i : Interface)
    {out out' : Release} (hface : out.face = out'.face) (hring : out.ring = out'.ring) :
    (r.released key index i out).queues = (r.released key index i out').queues := by
  simp only [queues, released, hface, hring]

/-- A release from another state ends like one from here, if face and ring end like that. -/
theorem Outgoing.from_here {r m : Relay} {key : FaceKey} {index : Nat} {i j : Interface}
    {out out' : Release} (h : Outgoing m (m.released key index j out')) (hsends : m.sends = r.sends)
    (hface : out'.face = out.face) (hring : out'.ring = out.ring)
    (hfaces : ∀ g : Face, m.faces.modify key (fun _ => g) = r.faces.modify key fun _ => g)
    (hinterfaces : ∀ queue, m.interfaces.set index { j with queue } =
      r.interfaces.set index { i with queue }) : Outgoing m (r.released key index i out) := by
  refine h.trans (.quiet ?_ ?_)
  · simp only [queues, released, hface, hring, hfaces, hinterfaces]
  · exact (sends_logAll r _).trans (hsends.symm.trans (sends_logAll m _).symm)

/-- A face and a ring that are put where they are. -/
theorem outgoing_released_self {r : Relay} {key : FaceKey} {f : Face} {index : Nat} {i : Interface}
    (hf : r.face? key = some f) (hi : r.interfaces[index]? = some i) (released : Bool)
    (records : List LogRecord) :
    Outgoing r (r.released key index i ⟨f, i.queue, released, records⟩) := by
  have hfaces : (r.faces.modify key fun _ => f).mapEntries Face.link =
      r.faces.mapEntries Face.link := by
    apply Slots.mapEntries_modify
    intro g hg
    cases hf.symm.trans hg
    rfl
  have hinterfaces := map_set_of_eq (b := i) Interface.outlet hi rfl
  refine .quiet ?_ (sends_logAll r _)
  simp only [queues, Relay.released, hfaces, hinterfaces]

/-- A release takes the first packet off the queue. After that it ends if units of it went, and goes
    on like a release of the other packets if not. -/
theorem step_releaseFrom {r : Relay} {key : FaceKey} {f : Face} {index : Nat} {i : Interface}
    {p : QueuedPacket} {rest : List QueuedPacket}
    (hf : r.face? key = some { f with queue := p :: rest }) (hidle : f.inFlight = none)
    (hindex : f.interface = some index) (hi : r.interfaces[index]? = some i)
    (hrest : ∀ {m : Relay} {g : Face} {j : Interface}, m.face? key = some { g with queue := rest } →
      g.inFlight = none → g.interface = some index → m.interfaces[index]? = some j →
        Outgoing m (m.released key index j (g.releaseFrom key index j.queue rest))) :
    ∃ sign m, Step r sign m ∧ sign.taken? key = some p ∧
      Outgoing m (r.released key index i (f.releaseFrom key index i.queue (p :: rest))) := by
  unfold Face.releaseFrom
  split
  · rename_i e fragmenter hcut
    have hskipped : (r.modifyFace key fun _ => { f with queue := rest, fragmenter }).face? key =
        some { f with queue := rest, fragmenter } := by
      rw [face?_modifyFace_self, hf]
      rfl
    have hgoes := hrest (g := { f with fragmenter }) hskipped hidle hindex hi
    refine ⟨_, _, .uncut hf hindex hidle rfl hcut, if_pos rfl, hgoes.from_here rfl rfl rfl
      (fun g => ?_) fun _ => rfl⟩
    exact Slots.modify_modify _ _ _ _
  · rename_i fragments fragmenter hcut
    refine ⟨_, _, .released hf hindex hi hidle rfl hcut, if_pos rfl, ?_⟩
    dsimp only
    split
    · rename_i hwent
      refine .quiet ?_ ?_
      · refine queues_released_congr r key index i (Eq.symm ?_) rfl
        exact Face.launch_face_of_lt (f := { f with queue := p :: rest }) hwent
      · exact (sends_logAll r _).trans (sends_logAll r _).symm
    · rename_i hnone
      have hlt : index < r.interfaces.length := (List.getElem?_eq_some_iff.1 hi).1
      refine (hrest (g := { f with fragmenter }) ?_ hidle hindex
        (List.getElem?_set_self hlt)).from_here (sends_logAll r _) ?_ ?_ (fun g => ?_) fun queue => ?_
      · rw [face?_released hf, if_pos rfl]
        exact congrArg some (Face.launch_face_of_le (f := { f with queue := p :: rest }) hidle
          (Nat.le_of_not_lt hnone))
      · rfl
      · rfl
      · exact Slots.modify_modify _ _ _ _
      · exact List.set_set ..

/-- A face takes packets off its queue, one after the other, until one goes. -/
theorem outgoing_releaseFrom {r : Relay} {key : FaceKey} {f : Face} {index : Nat} {i : Interface}
    {queue : List QueuedPacket} (hf : r.face? key = some { f with queue })
    (hidle : f.inFlight = none) (hindex : f.interface = some index)
    (hi : r.interfaces[index]? = some i) :
    Outgoing r (r.released key index i (f.releaseFrom key index i.queue queue)) := by
  induction queue generalizing r f i with
  | nil => exact outgoing_released_self hf hi false []
  | cons p rest ih =>
    obtain ⟨sign, m, hstep, htaken, hgoes⟩ := step_releaseFrom hf hidle hindex hi ih
    exact (Outgoing.single hstep (Sign.isOutgoing_of_taken htaken)).trans hgoes

theorem outgoing_release (r : Relay) (key : FaceKey) : Outgoing r (r.release key).2 := by
  unfold release
  split
  · exact .refl r
  · rename_i f hf
    split
    · exact .refl r
    · rename_i index hindex
      split
      · exact .refl r
      · rename_i i hi
        unfold Face.release
        split
        · exact outgoing_released_self hf hi false []
        · rename_i hflight
          exact outgoing_releaseFrom hf (Option.not_isSome_iff_eq_none.1 hflight) hindex hi

/-- A face that has no packet in flight takes the first one off its queue. -/
theorem step_release {r : Relay} {key : FaceKey} {f : Face} {index : Nat} {i : Interface}
    {p : QueuedPacket} {rest : List QueuedPacket} (hf : r.face? key = some { f with queue := p :: rest })
    (hidle : f.inFlight = none) (hindex : f.interface = some index)
    (hi : r.interfaces[index]? = some i) :
    ∃ sign m, Step r sign m ∧ sign.taken? key = some p ∧ Outgoing m (r.release key).2 := by
  obtain ⟨sign, m, hstep, htaken, hgoes⟩ :=
    step_releaseFrom (f := { f with queue := p :: rest }) hf hidle hindex hi outgoing_releaseFrom
  refine ⟨sign, m, hstep, htaken, ?_⟩
  rw [release_eq hf hindex hi, Face.release, if_neg (by simp [hidle])]
  exact hgoes

/-! ## Sending -/

theorem outgoing_sendNext {r s : Relay} {index : Nat} (hr : r.Lines) (h : r.sendNext index = some s) :
    Outgoing r s := by
  obtain ⟨key, f, i, unit, queue, hf, hi, hpop, hkey, rfl⟩ := sendNext_cases hr h
  have hsent := Outgoing.single (.sent hf hi hpop hkey) rfl
  split
  · exact hsent.trans (outgoing_release _ key)
  · exact hsent

theorem outgoing_drain {r : Relay} (hr : r.Balanced) (index : Nat) : Outgoing r (r.drain index) := by
  fun_induction Relay.drain r index with
  | case1 r next h ih => exact (outgoing_sendNext hr.toLines h).trans (ih (hr.sendNext h))
  | case2 => exact .refl _

theorem sends_setTimer (r : Relay) (delay : Nat) (event : TimerEvent) :
    (r.setTimer delay event).2.sends = r.sends := by
  simp only [setTimer, Host.setTimer]
  split <;> simp [sends, Host.emit, List.filter_append, Effect.isSend]

theorem outgoing_kick {r : Relay} (hr : r.Balanced) (index : Nat) : Outgoing r (r.kick index) := by
  have hkicked := kick_cases r index
  generalize r.kick index = s at *
  cases hkicked with
  | absent | busy | empty | waits => exact .refl r
  | drained => exact outgoing_drain hr index
  | @armed s delay _ hset =>
    have houtgoing : Outgoing r (r.setTimer delay (.clearToSend index)).2 :=
      .quiet (queues_setTimer r delay _) (sends_setTimer r delay _)
    rw [hset] at houtgoing
    exact houtgoing.trans (.quiet (queues_modifyInterface s index fun _ => rfl) rfl)
  | @refused s delay hset text =>
    have hqueues := queues_setTimer r delay (.clearToSend index)
    have houtgoing : Outgoing r (r.setTimer delay (.clearToSend index)).2 :=
      .quiet hqueues (sends_setTimer r delay _)
    rw [hset] at hqueues houtgoing
    have hlogged : Outgoing s (s.log .warn text) := .quiet rfl (sends_logAll s [⟨.warn, text⟩])
    exact (houtgoing.trans hlogged).trans
      (outgoing_drain (hr.of_queues (s := s.log _ _) hqueues) index)

theorem outgoing_clearToSend {r : Relay} (hr : r.Balanced) (index : Nat) :
    Outgoing r (r.clearToSend index) := by
  have hdisarmed := r.queues_modifyInterface index (g := fun i => { i with timer := none })
    fun _ => rfl
  have hbalanced := hr.of_queues hdisarmed
  unfold clearToSend
  refine (Outgoing.quiet hdisarmed rfl).trans ?_
  dsimp only
  cases hnext : (r.modifyInterface index fun i => { i with timer := none }).sendNext index with
  | none => exact outgoing_kick hbalanced index
  | some s =>
    exact (outgoing_sendNext hbalanced.toLines hnext).trans
      (outgoing_kick (hbalanced.sendNext hnext) index)

/-! ## Queueing -/

/-- A packet that is taken on waits at a face of an interface, which may release it. Otherwise all
    that happens is a record. -/
theorem enqueue_cases {r : Relay} (hr : r.Balanced) (key : FaceKey) (suite : Suite) (bytes : Bytes) :
    (∃ f index, r.face? key = some f ∧ f.interface = some index ∧
        (r.enqueue key suite bytes).1 = .ok true ∧
        Outgoing ((r.modifyFace key fun f =>
          { f with queue := f.queue ++ [⟨suite, bytes⟩] }).release key).2
            (r.enqueue key suite bytes).2) ∨
      (r.enqueue key suite bytes).1 ≠ .ok true ∧ (r.enqueue key suite bytes).2.links = r.links := by
  unfold enqueue
  split
  · exact .inr ⟨nofun, rfl⟩
  · rename_i f hf
    split
    · exact .inr ⟨nofun, rfl⟩
    · rename_i index hindex
      split
      · exact .inr ⟨nofun, links_log r _ _⟩
      · refine .inl ⟨f, index, hf, hindex, ?_⟩
        dsimp only
        split
        · rename_i s hs
          obtain ⟨hline, hsettled, -⟩ := queued_line hr hf _ hs
          rw [hs]
          exact ⟨rfl, outgoing_kick (hr.onLine hline hsettled) index⟩
        · rename_i s hs
          rw [hs]
          exact ⟨rfl, .refl s⟩

/-! ## What transmits nothing -/

theorem sends_of_links {r s : Relay} (h : s.links = r.links) : s.sends = r.sends := by
  have hlinks (r : Relay) : r.sends = r.links.sends := by
    simp only [sends, links, Host.outward, List.filter_filter]
    refine List.filter_congr fun e _ => ?_
    cases e <;> rfl
  rw [hlinks s, h, ← hlinks]

theorem sends_armAgeing (r : Relay) : r.armAgeing.2.sends = r.sends := by
  obtain ⟨timer, harm⟩ := armAgeing_eq r
  rw [harm]
  exact sends_setTimer r r.timeouts.ageingInterval .ageing

theorem sends_start (r : Relay) : r.start.2.sends = r.sends := by
  obtain ⟨s, harmed, hs⟩ := start_cases r
  have hsame : s.sends = r.sends := by
    rcases harmed with rfl | rfl
    · rfl
    · exact sends_armAgeing r
  rcases hs with hs | ⟨text, hs⟩ <;> rw [hs]
  · exact hsame
  · exact (sends_logAll s [⟨_, text⟩]).trans hsame

theorem sends_stop (r : Relay) : r.stop.sends = r.sends := by
  have hcancelled (handles : List Nat) (s : Relay) :
      (handles.foldl cancelTimer s).sends = s.sends := by
    induction handles generalizing s with
    | nil => rfl
    | cons handle handles ih =>
      refine (ih _).trans ?_
      simp [sends, cancelTimer, Host.cancelTimer, Host.emit, List.filter_append, Effect.isSend]
  exact hcancelled _ r

/-! ## Runs -/

theorem removeFace_of_none {r : Relay} {key : FaceKey} (hf : r.face? key = none) :
    (r.removeFace key).2 = r := by
  unfold Relay.removeFace
  split
  · rfl
  · rename_i f faces hremoved
    rw [face?, ← Slots.remove_fst, hremoved] at hf
    cases hf

/-- Some steps lead from one state to the other. -/
def Traced (r s : Relay) : Prop := ∃ trace, Steps r trace s

namespace Traced

variable {r s t : Relay} {sign : Sign}

theorem quiet (hqueues : s.queues = r.queues) (hsends : s.sends = r.sends) : Traced r s :=
  ⟨[], (Steps.refl r).quiet hqueues hsends⟩

theorem refl (r : Relay) : Traced r r := quiet rfl rfl

theorem single (h : Step r sign s) : Traced r s := ⟨[sign], .single h⟩

theorem trans (h : Traced r s) (h' : Traced s t) : Traced r t := by
  obtain ⟨trace, hsteps⟩ := h
  obtain ⟨more, hsteps'⟩ := h'
  exact ⟨trace ++ more, hsteps.trans hsteps'⟩

theorem of_outgoing (h : Outgoing r s) : Traced r s := by
  obtain ⟨trace, hsteps, -⟩ := h
  exact ⟨trace, hsteps⟩

theorem of_links (h : s.links = r.links) : Traced r s :=
  quiet (queues_of_links h) (sends_of_links h)

/-! ### Acts and calls -/

theorem act (hr : r.Balanced) (h : Act r s) : Traced r s := by
  cases h with
  | quiet h => exact of_links h
  | enqueue key suite bytes =>
    rcases enqueue_cases hr key suite bytes with ⟨f, index, hf, hindex, -, hgoes⟩ | ⟨-, hquiet⟩
    · exact (single (.queued hf hindex ⟨suite, bytes⟩)).trans
        (of_outgoing ((outgoing_release _ key).trans hgoes))
    · exact of_links hquiet
  | newFace h address flags =>
    refine single (.added rfl rfl fun index hindex => ?_)
    cases hindex
    exact ⟨_, h, rfl⟩
  | newApplicationFace flags => exact single (.added rfl rfl fun index hindex => by cases hindex)
  | removeFace key =>
    cases hf : r.face? key with
    | some f => exact single (.removed hf)
    | none =>
      rw [removeFace_of_none hf]
      exact refl r
  | newInterface address mtu flags => exact single (.opened r address mtu flags)
  | pace index pacing => exact quiet (queues_modifyInterface r index fun _ => rfl) rfl

theorem acts (hr : r.Balanced) (h : Acts r s) : Traced r s := by
  induction h with
  | refl => exact refl r
  | tail h hact ih => exact ih.trans (act (hr.acts h) hact)

theorem onTimer (hr : r.Balanced) (event : TimerEvent) : Traced r (r.onTimer event) := by
  cases event with
  | clearToSend index => exact of_outgoing (outgoing_clearToSend hr index)
  | ageing =>
    have hdisarmed : ({ r with ageingTimer := none } : Relay).Balanced := hr.of_queues rfl
    have hswept := (acts hdisarmed (acts_age _)).trans
      (quiet (queues_armAgeing _) (sends_armAgeing _))
    have hdisarming : Traced r { r with ageingTimer := none } := quiet rfl rfl
    have harmed := hdisarming.trans hswept
    rcases onTimer_ageing_cases r rfl with hs | ⟨text, hs⟩ <;> rw [hs]
    · exact harmed
    · exact harmed.trans (of_links (links_log _ _ _))

theorem perform (hr : r.Balanced) (c : Call) : Traced r (r.perform c) := by
  cases htimed : c.isTimed with
  | false => exact acts hr (acts_perform r htimed)
  | true =>
    cases c with
    | start => exact quiet (queues_start r) (sends_start r)
    | stop => exact quiet (queues_stop r) (sends_stop r)
    | onTimer event => exact onTimer hr event
    | expire event =>
      simp only [Relay.perform]
      split
      · rename_i hexpired
        obtain ⟨timer, -, htaken⟩ := Option.map_eq_some_iff.1 hexpired
        cases htaken
        exact quiet rfl rfl
      · exact refl r
    | _ => cases htimed

/-- Every run is made of steps. -/
theorem performAll (hr : r.Balanced) (calls : List Call) : Traced r (r.performAll calls) := by
  induction calls generalizing r with
  | nil => exact refl r
  | cons c calls ih => exact (perform hr c).trans (ih (hr.perform c))

end Traced

end Relay

end NameRelay
