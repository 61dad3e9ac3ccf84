-- SUMMARY: Only stopping a relay strands units, and starting it again does not free them.
import Mathlib.Data.List.Induction
import NameRelay.Proofs.Relay.Balance

/-!
# Stopping and starting

Units that wait at a paced interface go out one by one, each when a timer goes off, so a timer has to
be armed for as long as any are left. Every call sees to that, as long as the host hands a timer over
when it goes off, with one exception: stopping a relay takes the timers of its interfaces back. What
waits then is stranded, and starting the relay again sets the timer for the sweep and no other.
-/

namespace NameRelay

namespace Relay

/-! ## Timers in order -/

/-- The timer that an interface waits for. -/
def timer? (r : Relay) (index : Nat) : Option Nat := r.interfaces[index]?.bind (·.timer)

/-- Armed timers go by different handles, and interfaces wait for timers of their own that are
    armed. -/
structure Timed (r : Relay) : Prop where
  bounded : ∀ t ∈ r.host.armed, t.handle ≤ r.host.granted
  distinct : ∀ t ∈ r.host.armed, ∀ u ∈ r.host.armed, t.handle = u.handle → t = u
  waits : ∀ index handle, r.timer? index = some handle →
    ∃ t ∈ r.host.armed, t.handle = handle ∧ t.event = .clearToSend index

/-- Units wait at the interface, and no timer is armed that would let one go. -/
def Stranded (r : Relay) (index : Nat) : Prop :=
  r.units index ≠ [] ∧ ∀ t ∈ r.host.armed, t.event ≠ .clearToSend index

instance (r : Relay) (index : Nat) : Decidable (r.Stranded index) :=
  inferInstanceAs (Decidable (_ ∧ _))

section

variable {r s : Relay} {index : Nat}

theorem timer?_of_timing (h : s.timing = r.timing) (index : Nat) : s.timer? index = r.timer? index := by
  have hmap (r : Relay) : r.timer? index = (r.timing.2.2[index]?).bind id := by
    rw [timer?, timing, List.getElem?_map, Option.bind_map]
    rfl
  rw [hmap, hmap, h]

theorem armed_of_timing (h : s.timing = r.timing) : s.host.armed = r.host.armed :=
  (congrArg (·.1) h :)

theorem Timed.congr (hr : r.Timed) (harmed : s.host.armed = r.host.armed)
    (hgranted : s.host.granted = r.host.granted) (htimer : ∀ index, s.timer? index = r.timer? index) :
    s.Timed where
  bounded := by
    rw [harmed, hgranted]
    exact hr.bounded
  distinct := by
    rw [harmed]
    exact hr.distinct
  waits := by
    intro index handle
    rw [htimer, harmed]
    exact hr.waits index handle

theorem Timed.of_timing (hr : r.Timed) (h : s.timing = r.timing) : s.Timed :=
  hr.congr (armed_of_timing h) (congrArg (·.2.1) h :) (timer?_of_timing h)

theorem timer?_modifyInterface (r : Relay) (index : Nat) (timer : Option Nat) (j : Nat) :
    (r.modifyInterface index fun i => { i with timer }).timer? j =
      if j = index then r.interfaces[index]?.bind fun _ => timer else r.timer? j := by
  rw [timer?, modifyInterface, List.getElem?_modify]
  by_cases hj : j = index
  · subst hj
    cases r.interfaces[j]? <;> simp
  · simp [hj, Ne.symm hj, timer?]

/-- An interface may wait for a timer of its own that is armed, or for none. -/
theorem Timed.modifyTimer (hr : r.Timed) (index : Nat) (timer : Option Nat)
    (h : ∀ handle, timer = some handle →
      ∃ t ∈ r.host.armed, t.handle = handle ∧ t.event = .clearToSend index) :
    (r.modifyInterface index fun i => { i with timer }).Timed where
  bounded := hr.bounded
  distinct := hr.distinct
  waits j handle htimer := by
    rw [timer?_modifyInterface] at htimer
    split at htimer
    · rename_i hj
      obtain ⟨i, -, hi⟩ := Option.bind_eq_some_iff.1 htimer
      exact hj ▸ h handle hi
    · exact hr.waits j handle htimer

/-- A timer that is granted has a new handle. -/
theorem Timed.setTimer (hr : r.Timed) {delay : Nat} {event : TimerEvent} {answer : Option Nat}
    (h : r.setTimer delay event = (answer, s)) : s.Timed ∧
      (∀ t ∈ r.host.armed, t ∈ s.host.armed) ∧
      ∀ handle, answer = some handle → ∃ t ∈ s.host.armed, t.handle = handle ∧ t.event = event := by
  simp only [Relay.setTimer, Host.setTimer] at h
  split at h
  · cases h
    let new : ArmedTimer := ⟨r.host.granted + 1, delay, event⟩
    have hnew (t : ArmedTimer) : t ∈ r.host.armed ++ [new] ↔ t ∈ r.host.armed ∨ t = new := by
      rw [List.mem_append, List.mem_singleton]
    have hold (t : ArmedTimer) (ht : t ∈ r.host.armed) : t ∈ r.host.armed ++ [new] :=
      (hnew t).2 (.inl ht)
    have hother (t : ArmedTimer) (ht : t ∈ r.host.armed) : t.handle ≠ new.handle :=
      Nat.ne_of_lt (Nat.lt_succ_of_le (hr.bounded t ht))
    refine ⟨⟨fun t ht => ?_, fun t ht u hu hsame => ?_, fun index handle htimer => ?_⟩, hold,
      fun handle hhandle => ?_⟩
    · rcases (hnew t).1 ht with hin | rfl
      · exact Nat.le_succ_of_le (hr.bounded t hin)
      · exact Nat.le_refl _
    · rcases (hnew t).1 ht with htin | rfl <;> rcases (hnew u).1 hu with huin | rfl
      · exact hr.distinct t htin u huin hsame
      · exact absurd hsame (hother t htin)
      · exact absurd hsame.symm (hother u huin)
      · rfl
    · obtain ⟨t, ht, hboth⟩ := hr.waits index handle htimer
      exact ⟨t, hold t ht, hboth⟩
    · cases hhandle
      exact ⟨new, (hnew new).2 (.inr rfl), rfl, rfl⟩
  · cases h
    exact ⟨hr.of_timing rfl, fun t ht => ht, fun handle hhandle => by cases hhandle⟩

/-! ## Steady steps -/

/-- The step leads to a state with its timers in order, and strands no interface. -/
structure Steady (r s : Relay) : Prop where
  timed : s.Timed
  strands : ∀ index, s.Stranded index → r.Stranded index

namespace Steady

theorem refl (hr : r.Timed) : Steady r r := ⟨hr, fun _ h => h⟩

theorem trans {t : Relay} (h : Steady r s) (h' : Steady s t) : Steady r t :=
  ⟨h'.timed, fun index ht => h.strands index (h'.strands index ht)⟩

/-- Nothing new waits, and the timers that were armed still are. -/
theorem of_armed (hs : s.Timed) (hunits : ∀ index, s.units index ≠ [] → r.units index ≠ [])
    (harmed : ∀ t ∈ r.host.armed, t ∈ s.host.armed) : Steady r s :=
  ⟨hs, fun index h => ⟨hunits index h.1, fun t ht => h.2 t (harmed t ht)⟩⟩

/-- The queues are the same, and the timers that were armed still are. -/
theorem of_queues (hs : s.Timed) (hqueues : s.queues = r.queues)
    (harmed : ∀ t ∈ r.host.armed, t ∈ s.host.armed) : Steady r s :=
  of_armed hs (fun index h => by rwa [units_of_queues hqueues] at h) harmed

/-- Nothing new waits, and the timers are the same. -/
theorem of_timing (hr : r.Timed) (h : s.timing = r.timing)
    (hunits : ∀ index, s.units index ≠ [] → r.units index ≠ []) : Steady r s :=
  of_armed (hr.of_timing h) hunits fun t ht => by rwa [armed_of_timing h]

end Steady

/-! ## Sending -/

theorem units_of_sendNext (hb : r.Balanced) (h : r.sendNext index = none) : r.units index = [] := by
  unfold sendNext at h
  split at h
  · rename_i hnone
    rw [units, hnone]
    rfl
  · rename_i i hi
    rw [units_of_interface hi]
    split at h
    · rename_i hpop
      exact (hb.rings i (List.mem_of_getElem? hi)).pop?_eq_none_iff.1 hpop
    · dsimp only at h
      split at h <;> cases h

/-- A ring is drained to the end, and no other is touched. -/
theorem units_drain (hb : r.Balanced) (index j : Nat) :
    (r.drain index).units j = if j = index then [] else r.units j := by
  fun_induction drain r index with
  | case1 r next h ih =>
    rw [ih (hb.sendNext h)]
    split
    · rfl
    · rename_i hj
      obtain ⟨key, f, hf, hindex, hline, -⟩ := sendNext_line hb h
      refine hline.units_of_ne hb.toLines hf fun hother => hj ?_
      exact Option.some.inj (hother.symm.trans hindex)
  | case2 r h =>
    split
    · rename_i hj
      rw [hj, units_of_sendNext hb h]
    · rfl

theorem timing_drain (hb : r.Balanced) (index : Nat) : (r.drain index).timing = r.timing := by
  fun_induction drain r index with
  | case1 r next h ih =>
    obtain ⟨_, _, _, _, hline, _⟩ := sendNext_line hb h
    exact (ih (hb.sendNext h)).trans hline.timing
  | case2 => rfl

theorem not_stranded_of_units (h : r.units index = []) : ¬r.Stranded index := fun hs => hs.1 h

theorem not_stranded_of_armed {t : ArmedTimer} (ht : t ∈ r.host.armed)
    (hevent : t.event = .clearToSend index) : ¬r.Stranded index := fun hs => hs.2 t ht hevent

theorem steady_drain (hb : r.Balanced) (hr : r.Timed) (index : Nat) :
    Steady r (r.drain index) ∧ ¬(r.drain index).Stranded index := by
  refine ⟨.of_timing hr (timing_drain hb index) fun j hj => ?_, ?_⟩
  · rw [units_drain hb] at hj
    split at hj
    · exact absurd rfl hj
    · exact hj
  · exact not_stranded_of_units (by rw [units_drain hb, if_pos rfl])

/-- Once an interface was made to send it is not stranded, and no other is that was not before. -/
theorem steady_kick (hb : r.Balanced) (hr : r.Timed) (index : Nat) :
    Steady r (r.kick index) ∧ ¬(r.kick index).Stranded index := by
  have hkicked := kick_cases r index
  generalize r.kick index = s at *
  cases hkicked with
  | absent hnone =>
    exact ⟨.refl hr, not_stranded_of_units (by rw [units, hnone]; rfl)⟩
  | @busy i hi hbusy =>
    cases hbusy.symm.trans (hb.calm i (List.mem_of_getElem? hi))
  | @empty i hi hempty =>
    refine ⟨.refl hr, not_stranded_of_units ?_⟩
    rw [units_of_interface hi]
    exact (hb.rings i (List.mem_of_getElem? hi)).isEmpty_iff.1 hempty
  | @waits i hi handle hhandle =>
    have htimer : r.timer? index = some handle := by rw [timer?, hi, Option.bind_some, hhandle]
    obtain ⟨t, ht, -, hevent⟩ := hr.waits index handle htimer
    exact ⟨.refl hr, not_stranded_of_armed ht hevent⟩
  | drained => exact steady_drain hb hr index
  | @armed s delay handle hset =>
    have hqueues := queues_setTimer r delay (.clearToSend index)
    obtain ⟨htimed, hkept, hnew⟩ := hr.setTimer hset
    rw [hset] at hqueues
    obtain ⟨t, ht, hboth⟩ := hnew handle rfl
    have hwaiting := htimed.modifyTimer index (some handle) fun _ hsame => by
      cases hsame
      exact ⟨t, ht, hboth⟩
    have hsame := queues_modifyInterface s index (g := fun i => { i with timer := some handle })
      fun _ => rfl
    exact ⟨.of_queues hwaiting (hsame.trans hqueues) hkept, not_stranded_of_armed ht hboth.2⟩
  | @refused s delay hset text =>
    have hqueues := queues_setTimer r delay (.clearToSend index)
    obtain ⟨htimed, hkept, -⟩ := hr.setTimer hset
    rw [hset] at hqueues
    have hlogged : Steady r (s.log .warn text) :=
      .of_queues (htimed.of_timing rfl) hqueues hkept
    obtain ⟨hdrained, hfree⟩ := steady_drain (r := s.log .warn text)
      (hb.of_queues hqueues) hlogged.timed index
    exact ⟨hlogged.trans hdrained, hfree⟩

/-- The line of a face moves, and then the interface is made to send. -/
theorem steady_line (hb : r.Balanced) (hr : r.Timed) {key : FaceKey} {f : Face}
    (hf : r.face? key = some f) (hindex : f.interface = some index) (hline : OnLine key r s)
    (hsettled : s.Settled key) :
    Steady r (s.kick index) ∧ ¬(s.kick index).Stranded index := by
  obtain ⟨hkicked, hfree⟩ := steady_kick (hb.onLine hline hsettled) (hr.of_timing hline.timing) index
  refine ⟨⟨hkicked.timed, fun j hj => ?_⟩, hfree⟩
  have hother : f.interface ≠ some j := by
    intro hsame
    cases hindex.symm.trans hsame
    exact hfree hj
  obtain ⟨hwait, harmed⟩ := hkicked.strands j hj
  refine ⟨?_, ?_⟩
  · rwa [hline.units_of_ne hb.toLines hf hother] at hwait
  · rwa [armed_of_timing hline.timing] at harmed

/-- A timer that went off lets one unit go, and the next wait begins if there are more. -/
theorem steady_clearToSend (hb : r.Balanced)
    (hr : (r.modifyInterface index fun i => { i with timer := none }).Timed) :
    Steady r (r.clearToSend index) ∧ ¬(r.clearToSend index).Stranded index := by
  have hqueues := queues_modifyInterface r index (g := fun i => { i with timer := none })
    fun _ => rfl
  have hfreed : Steady r (r.modifyInterface index fun i => { i with timer := none }) :=
    .of_queues hr hqueues fun _ ht => ht
  have hbalanced := hb.of_queues hqueues
  unfold clearToSend
  dsimp only
  generalize (r.modifyInterface index fun i => { i with timer := none }) = t at *
  cases hnext : t.sendNext index with
  | none =>
    obtain ⟨hkicked, hfree⟩ := steady_kick hbalanced hr index
    exact ⟨hfreed.trans hkicked, hfree⟩
  | some s =>
    obtain ⟨key, f, hf, hindex, hline, hsettled⟩ := sendNext_line hbalanced hnext
    obtain ⟨hkicked, hfree⟩ := steady_line hbalanced hr hf hindex hline hsettled
    exact ⟨hfreed.trans hkicked, hfree⟩

/-! ## Acts -/

theorem timing_of_links (h : s.links = r.links) : s.timing = r.timing :=
  (congrArg timing h :)

/-- No act strands an interface: units go to a ring only if its interface sends. -/
theorem steady_act (hb : r.Balanced) (hr : r.Timed) (h : Act r s) : Steady r s := by
  have hquiet {s : Relay} (h : s.links = r.links) : Steady r s :=
    .of_timing hr (timing_of_links h) fun j hj => by rwa [units_of_queues (queues_of_links h)] at hj
  cases h with
  | quiet h => exact hquiet h
  | enqueue key suite bytes =>
    rcases enqueue_line hb key suite bytes with hsame | ⟨f, index, t, hf, hindex, hline, hsettled, hs⟩
    · exact hquiet hsame
    · rcases hs with hs | ⟨hs, hunits⟩
      · exact hs ▸ (steady_line hb hr hf hindex hline hsettled).1
      · exact hs ▸ .of_timing hr hline.timing fun j hj => by rwa [hunits] at hj
  | newFace | newApplicationFace => exact .of_timing hr rfl fun _ hj => hj
  | removeFace key =>
    unfold Relay.removeFace
    split
    · exact .refl hr
    · rename_i f faces hremoved
      refine .of_timing hr ?_ fun j hj hnone => hj ?_
      · have htimers : (withdraw key r.interfaces).2.map (·.timer) = r.interfaces.map (·.timer) := by
          rw [withdraw_snd, List.map_map]
          rfl
        exact congrArg (fun timers => (r.host.armed, r.host.granted, timers)) htimers
      · rw [units_withdraw hb.toLines key rfl, hnone]
        rfl
  | newInterface address mtu flags =>
    have hunits := units_insertInterface r address mtu flags
    refine .of_armed (hr.congr rfl rfl fun j => ?_) (fun j hj => by rwa [hunits] at hj) fun _ ht => ht
    rw [timer?, timer?, List.getElem?_append]
    split
    · rfl
    · rename_i hbound
      rw [List.getElem?_eq_none (Nat.le_of_not_lt hbound), List.getElem?_singleton]
      split <;> rfl
  | pace index pacing =>
    have htimers : (r.modifyInterface index fun i => { i with pacing }).timing = r.timing :=
      congrArg (fun timers => (r.host.armed, r.host.granted, timers))
        (map_modify_of_eq _ _ _ _ fun _ => rfl)
    have hqueues : (r.modifyInterface index fun i => { i with pacing }).queues = r.queues :=
      queues_modifyInterface r index fun _ => rfl
    exact .of_timing hr htimers fun j hj => by rwa [units_of_queues hqueues] at hj

theorem steady_acts (hb : r.Balanced) (hr : r.Timed) (h : Acts r s) : Steady r s := by
  induction h with
  | refl => exact .refl hr
  | tail hacts hact ih => exact ih.trans (steady_act (hb.acts hacts) ih.timed hact)

/-! ## Calls about timers -/

theorem steady_armAgeing (hr : r.Timed) : Steady r r.armAgeing.2 := by
  obtain ⟨timer, harm⟩ := armAgeing_eq r
  obtain ⟨htimed, hkept, -⟩ := hr.setTimer
    (Prod.eta (r.setTimer r.timeouts.ageingInterval .ageing)).symm
  rw [harm]
  exact .of_queues (htimed.of_timing rfl)
    (queues_setTimer r r.timeouts.ageingInterval .ageing) hkept

theorem steady_log (hr : r.Timed) (level : LogLevel) (text : String) :
    Steady r (r.log level text) := .of_timing hr rfl fun _ hj => hj

theorem steady_start (hr : r.Timed) : Steady r r.start.2 := by
  obtain ⟨s, harmed, hs⟩ := start_cases r
  have hsteady : Steady r s := by
    rcases harmed with rfl | rfl
    · exact .refl hr
    · exact steady_armAgeing hr
  rcases hs with hs | ⟨text, hs⟩ <;> rw [hs]
  · exact hsteady
  · exact hsteady.trans (steady_log hsteady.timed _ _)

theorem steady_ageing (hb : r.Balanced) (hr : r.Timed) : Steady r (r.onTimer .ageing) := by
  have hdisarmed : Steady r { r with ageingTimer := none } := .of_timing hr rfl fun _ hj => hj
  have hbalanced : ({ r with ageingTimer := none } : Relay).Balanced := hb.of_queues rfl
  have hswept := hdisarmed.trans (steady_acts hbalanced hdisarmed.timed (acts_age _))
  have harmed := hswept.trans (steady_armAgeing hswept.timed)
  rcases onTimer_ageing_cases r rfl with hs | ⟨text, hs⟩ <;> rw [hs]
  · exact harmed
  · exact harmed.trans (steady_log harmed.timed _ _)

theorem steady_onTimer (hb : r.Balanced) (hr : r.Timed) (event : TimerEvent) :
    Steady r (r.onTimer event) := by
  cases event with
  | ageing => exact steady_ageing hb hr
  | clearToSend index => exact (steady_clearToSend hb (hr.modifyTimer index none nofun)).1

/-- A timer that goes off is taken off the list, and no other is. -/
theorem mem_armed_of_expire? {h h' : Host} {event : TimerEvent} {handle : Nat}
    (hexpire : h.expire? event = some (handle, h')) : ∃ t ∈ h.armed, t.event = event ∧
      h'.granted = h.granted ∧ ∀ u, u ∈ h'.armed ↔ u ∈ h.armed ∧ u.handle ≠ t.handle := by
  obtain ⟨t, hfind, heq⟩ := Option.map_eq_some_iff.1 hexpire
  cases heq
  refine ⟨t, List.mem_of_find?_eq_some hfind, by simpa using List.find?_some hfind, rfl, fun u => ?_⟩
  rw [List.mem_filter, bne_iff_ne]

/-- A timer that goes off and is handed over at once strands no interface. -/
theorem steady_expire (hb : r.Balanced) (hr : r.Timed) {event : TimerEvent} {handle : Nat}
    {host : Host} (hexpire : r.host.expire? event = some (handle, host)) :
    Steady r (({ r with host } : Relay).onTimer event) := by
  obtain ⟨t, ht, hevent, hgranted, hleft⟩ := mem_armed_of_expire? hexpire
  have hkept (u : ArmedTimer) (hu : u ∈ r.host.armed) (hother : u.event ≠ event) :
      u ∈ host.armed := by
    refine (hleft u).2 ⟨hu, fun hsame => hother ?_⟩
    rw [hr.distinct u hu t ht hsame, hevent]
  have hbounded : ∀ u ∈ host.armed, u.handle ≤ host.granted := by
    intro u hu
    rw [hgranted]
    exact hr.bounded u ((hleft u).1 hu).1
  have hdistinct : ∀ u ∈ host.armed, ∀ v ∈ host.armed, u.handle = v.handle → u = v :=
    fun u hu v hv => hr.distinct u ((hleft u).1 hu).1 v ((hleft v).1 hv).1
  have hwaits (j timer : Nat) (htimer : r.timer? j = some timer) (hother : .clearToSend j ≠ event) :
      ∃ u ∈ host.armed, u.handle = timer ∧ u.event = .clearToSend j := by
    obtain ⟨u, hu, hhandle, hj⟩ := hr.waits j timer htimer
    exact ⟨u, hkept u hu (hj ▸ hother), hhandle, hj⟩
  have hstrands (j : Nat) (hother : .clearToSend j ≠ event)
      (h : ({ r with host } : Relay).Stranded j) : r.Stranded j :=
    ⟨h.1, fun u hu hj => h.2 u (hkept u hu (hj ▸ hother)) hj⟩
  have hbalanced : ({ r with host } : Relay).Balanced := hb.of_queues rfl
  cases event with
  | ageing =>
    have hgone : Steady r { r with host } :=
      ⟨⟨hbounded, hdistinct, fun j timer htimer => hwaits j timer htimer nofun⟩,
        fun j h => hstrands j nofun h⟩
    exact hgone.trans (steady_ageing hbalanced hgone.timed)
  | clearToSend index =>
    have hfreed : (({ r with host } : Relay).modifyInterface index fun i =>
        { i with timer := none }).Timed := by
      refine ⟨hbounded, hdistinct, fun j timer htimer => ?_⟩
      rw [timer?_modifyInterface] at htimer
      split at htimer
      · obtain ⟨_, -, hnone⟩ := Option.bind_eq_some_iff.1 htimer
        cases hnone
      · rename_i hj
        exact hwaits j timer htimer fun hsame => hj (TimerEvent.clearToSend.inj hsame)
    obtain ⟨hsteady, hfree⟩ := steady_clearToSend hbalanced hfreed
    refine ⟨hsteady.timed, fun j hj => hstrands j (fun hsame => ?_) (hsteady.strands j hj)⟩
    cases hsame
    exact hfree hj

end

/-! ## Runs -/

/-- The relay after a call, if a timer that goes off is handed to it at once. -/
def performPromptly (r : Relay) : Call → Relay
  | .expire event =>
    match r.host.expire? event with
    | some (_, host) => ({ r with host } : Relay).onTimer event
    | none => r
  | c => r.perform c

/-- The relay after some calls, if timers that go off are handed to it at once. -/
def runPromptly (r : Relay) (calls : List Call) : Relay := calls.foldl performPromptly r

theorem runPromptly_concat (r : Relay) (calls : List Call) (c : Call) :
    r.runPromptly (calls ++ [c]) = (r.runPromptly calls).performPromptly c := by
  rw [runPromptly, List.foldl_append]
  rfl

/-- A relay before its first call. -/
inductive IsNew : Relay → Prop where
  | fresh (now : Instant) (digest : Bytes → Option Bytes) (grants : Nat → Bool) :
      IsNew (Relay.fresh (Host.fresh now digest grants))
  | configured (now : Instant) (digest : Bytes → Option Bytes) (grants : Nat → Bool) (c : Config)
      {r : Relay} (h : Relay.configured (Host.fresh now digest grants) c = (.ok (), r)) : IsNew r

section

variable {r : Relay}

theorem IsNew.reachable (h : r.IsNew) : Reachable r := by
  cases h with
  | fresh now digest grants => exact .fresh now digest grants
  | configured now digest grants c h => exact .configured now digest grants c h

/-- Handing timers over at once is one way to drive a relay. -/
theorem Reachable.performPromptly (h : Reachable r) (c : Call) : Reachable (r.performPromptly c) := by
  unfold Relay.performPromptly
  split
  · rename_i event
    have hexpired := h.perform (.expire event)
    simp only [Relay.perform] at hexpired
    split
    · rename_i handle host hexpire
      rw [hexpire] at hexpired
      exact hexpired.perform (.onTimer event)
    · exact h
  · exact h.perform c

theorem Reachable.runPromptly (h : Reachable r) (calls : List Call) :
    Reachable (r.runPromptly calls) := by
  induction calls generalizing r with
  | nil => exact h
  | cons c calls ih => exact ih (h.performPromptly c)

theorem timed_withLimits (now : Instant) (digest : Bytes → Option Bytes) (grants : Nat → Bool)
    (c : Config) : (withLimits (Host.fresh now digest grants) c).Timed where
  bounded := nofun
  distinct := nofun
  waits := by simp [withLimits, timer?]

theorem IsNew.steady (h : r.IsNew) : r.Timed ∧ ∀ index, ¬r.Stranded index := by
  have hnone (now : Instant) (digest : Bytes → Option Bytes) (grants : Nat → Bool) (c : Config)
      (index : Nat) : ¬(withLimits (Host.fresh now digest grants) c).Stranded index :=
    not_stranded_of_units rfl
  cases h with
  | fresh now digest grants => exact ⟨timed_withLimits _ _ _ _, hnone _ _ _ _⟩
  | configured now digest grants c h =>
    have hsteady := steady_acts (balanced_withLimits _ c) (timed_withLimits now digest grants c)
      ((acts_configured _ c).of_eq h)
    exact ⟨hsteady.timed, fun index hs => hnone _ _ _ _ index (hsteady.strands index hs)⟩

/-- After a stop no interface waits for a timer, and only timers that were armed are. -/
theorem timed_stop (hr : r.Timed) : r.stop.Timed := by
  have hcancelled (handles : List Nat) (s : Relay) :
      (handles.foldl cancelTimer s).host.granted = s.host.granted ∧
        ∀ t ∈ (handles.foldl cancelTimer s).host.armed, t ∈ s.host.armed := by
    induction handles generalizing s with
    | nil => exact ⟨rfl, fun t ht => ht⟩
    | cons handle handles ih =>
      obtain ⟨hgranted, harmed⟩ := ih (s.cancelTimer handle)
      exact ⟨hgranted, fun t ht => (List.mem_filter.1 (harmed t ht)).1⟩
  obtain ⟨hgranted, harmed⟩ := hcancelled
    ((r.ageingTimer :: r.interfaces.map (·.timer)).filterMap id) r
  refine ⟨fun t ht => ?_, fun t ht u hu => ?_, fun index handle htimer => ?_⟩
  · exact hgranted ▸ hr.bounded t (harmed t ht)
  · exact hr.distinct t (harmed t ht) u (harmed u hu)
  · simp only [timer?, stop, List.getElem?_map, Option.bind_map] at htimer
    obtain ⟨_, -, hnone⟩ := Option.bind_eq_some_iff.1 htimer
    cases hnone

/-- No call but a stop strands an interface. -/
theorem steady_performPromptly (hb : r.Balanced) (hr : r.Timed) {c : Call} (hc : c ≠ .stop) :
    Steady r (r.performPromptly c) := by
  unfold performPromptly
  split
  · split
    · rename_i hexpire
      exact steady_expire hb hr hexpire
    · exact .refl hr
  · rename_i hexpire
    cases htimed : c.isTimed with
    | false => exact steady_acts hb hr (acts_perform r htimed)
    | true =>
      cases c with
      | start => exact steady_start hr
      | stop => exact absurd rfl hc
      | onTimer event => exact steady_onTimer hb hr event
      | expire event => exact absurd rfl (hexpire event)
      | _ => cases htimed

theorem timed_runPromptly (h : r.IsNew) (calls : List Call) : (r.runPromptly calls).Timed := by
  induction calls using List.reverseRecOn with
  | nil => exact h.steady.1
  | append_singleton calls c ih =>
    have hb := (h.reachable.runPromptly calls).balanced
    rw [runPromptly_concat]
    by_cases hc : c = .stop
    · subst hc
      exact timed_stop ih
    · exact (steady_performPromptly hb ih hc).timed

/-! ## What does not help -/

theorem Stranded.congr {s : Relay} {index : Nat} (h : r.Stranded index)
    (hunits : s.units index = r.units index) (harmed : s.host.armed = r.host.armed) :
    s.Stranded index := by rwa [Stranded, hunits, harmed]

/-- Starting the relay sets no timer but the one for the sweep. -/
theorem Stranded.start {index : Nat} (h : r.Stranded index) : r.start.2.Stranded index := by
  have harmed : r.armAgeing.2.Stranded index := by
    obtain ⟨timer, harm⟩ := armAgeing_eq r
    rw [harm]
    refine ⟨h.1, fun t ht => ?_⟩
    simp only [setTimer, Host.setTimer] at ht
    split at ht
    · rcases List.mem_append.1 ht with hold | hnew
      · exact h.2 t hold
      · rw [List.mem_singleton.1 hnew]
        intro heq
        cases heq
    · exact h.2 t ht
  obtain ⟨s, hs, hstart⟩ := start_cases r
  have hstranded : s.Stranded index := by
    rcases hs with rfl | rfl
    · exact h
    · exact harmed
  rcases hstart with hstart | ⟨text, hstart⟩ <;> rw [hstart]
  · exact hstranded
  · exact hstranded

/-- A face with a packet in flight releases none. -/
theorem Stranded.release {index : Nat} (h : r.Stranded index) (key : FaceKey) {f : Face}
    (hf : r.face? key = some f) (hflight : f.inFlight.isSome = true) :
    (r.release key).1 = false ∧ (r.release key).2.Stranded index := by
  unfold Relay.release
  simp only [hf]
  split
  · exact ⟨rfl, h⟩
  · rename_i at_ _
    split
    · exact ⟨rfl, h⟩
    · rename_i i hi
      rw [Face.release_of_inFlight hflight]
      refine ⟨rfl, h.congr ?_ rfl⟩
      rw [units_of_set hi rfl]
      split
      · rename_i hhere
        rw [hhere]
        exact (units_of_interface hi).symm
      · rfl

/-- A packet queued behind one in flight does not make the interface send. -/
theorem Stranded.enqueue {index : Nat} (h : r.Stranded index) {key : FaceKey} {f : Face}
    (hf : r.face? key = some f) (hindex : f.interface = some index)
    (hflight : f.inFlight.isSome = true) (suite : Suite) (bytes : Bytes) :
    (r.enqueue key suite bytes).2.Stranded index := by
  let queued (f : Face) : Face := { f with queue := f.queue ++ [⟨suite, bytes⟩] }
  have hqueued : (r.modifyFace key queued).Stranded index := h
  have hface : (r.modifyFace key queued).face? key = some (queued f) := by
    rw [face?_modifyFace_self, hf]
    rfl
  obtain ⟨hnone, hrelease⟩ := hqueued.release key hface hflight
  unfold Relay.enqueue
  simp only [hf, hindex]
  split
  · exact h
  · split
    · rename_i s hs
      cases hnone.symm.trans (congrArg (·.1) hs)
    · rename_i s hs
      exact (congrArg (·.2) hs : _ = s) ▸ hrelease

/-- An interface is stranded just if it was by a stop and has been ever since: no other call does it.
    Starting the relay again does not help, and neither does a packet for a face that has one in
    flight. -/
theorem stranded_iff (h : r.IsNew) (calls : List Call) (index : Nat) :
    ((r.runPromptly calls).Stranded index ↔ ∃ before after, calls = before ++ .stop :: after ∧
      ∀ since, since <+: after → (r.runPromptly (before ++ .stop :: since)).Stranded index) ∧
    ∀ s : Relay, s.Stranded index → s.start.2.Stranded index ∧
      ∀ key f suite bytes, s.face? key = some f → f.interface = some index →
        f.inFlight.isSome = true → (s.enqueue key suite bytes).2.Stranded index := by
  refine ⟨⟨?_, ?_⟩, fun s hs => ⟨hs.start, fun key f suite bytes hf hindex hflight =>
    hs.enqueue hf hindex hflight suite bytes⟩⟩
  · induction calls using List.reverseRecOn with
    | nil => exact fun hs => absurd hs (h.steady.2 index)
    | append_singleton calls c ih =>
      intro hs
      by_cases hc : c = .stop
      · subst hc
        refine ⟨calls, [], rfl, fun since hsince => ?_⟩
        rwa [List.prefix_nil.1 hsince]
      · have hb := (h.reachable.runPromptly calls).balanced
        have hstep : Steady (r.runPromptly calls) (r.runPromptly (calls ++ [c])) := by
          rw [runPromptly_concat]
          exact steady_performPromptly hb (timed_runPromptly h calls) hc
        obtain ⟨before, after, rfl, hever⟩ := ih (hstep.strands index hs)
        refine ⟨before, after ++ [c], by simp, fun since hsince => ?_⟩
        rcases List.prefix_concat_iff.1 hsince with rfl | hshorter
        · simpa using hs
        · exact hever since hshorter
  · rintro ⟨before, after, rfl, hever⟩
    exact hever after List.prefix_rfl

end

/-- One route over a paced interface, and two interests for it with a restart between them. -/
def interrupted : List Call :=
  [.addInterface (.path "own") 0 {}, .setPacing 0 (some 1000), .addFace 0 (.path "next") {},
    .addRoute ⟨.ndn, [[97]], none, .none⟩ .ndn (.face ⟨0, 0⟩),
    .receive 0 [5, 11, 7, 3, 8, 1, 97, 10, 4, 0, 0, 0, 1] (.path "first"), .stop, .start,
    .receive 0 [5, 14, 7, 6, 8, 1, 97, 8, 1, 98, 10, 4, 0, 0, 0, 2] (.path "first")]

/-- The relay is running again, and the first interest still waits, with the second behind it. -/
theorem interrupted_stranded :
    let r := (Relay.fresh (Host.fresh ⟨0⟩ (fun _ => none) fun _ => true)).runPromptly interrupted
    r.ageingTimer.isSome = true ∧ r.Stranded 0 ∧ ∃ before after,
      interrupted = before ++ .stop :: after ∧ ∀ since, since <+: after →
        ((Relay.fresh (Host.fresh ⟨0⟩ (fun _ => none) fun _ => true)).runPromptly
          (before ++ .stop :: since)).Stranded 0 := by
  have hstranded : ((Relay.fresh (Host.fresh ⟨0⟩ (fun _ => none) fun _ => true)).runPromptly
      interrupted).Stranded 0 := by decide +kernel
  exact ⟨by decide +kernel, hstranded,
    (stranded_iff (.fresh ⟨0⟩ (fun _ => none) fun _ => true) interrupted 0).1.1 hstranded⟩

end Relay

end NameRelay
