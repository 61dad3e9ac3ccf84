-- SUMMARY: The timers that are armed are those the relay remembers, one for each event.
import Mathlib.Data.List.Nodup
import Mathlib.Logic.Function.Basic
import Mathlib.Logic.Relation
import NameRelay.Proofs.Relay.Restart

/-!
# Timers

A relay remembers the handle of each timer it was granted, one for the sweep and one for every
interface that waits, until the timer goes off or is taken back. `Relay.dial` is what there is to see
of this, and a call turns the dial in beats: a timer is set for an interface that waits for none, or a
unit goes out over an interface that need not wait. Every act is made of beats, so what a beat
preserves every call preserves.

A host that tells a relay of each armed timer once, when it takes it off its list, and of no other,
has at every time exactly those timers armed that the relay remembers.
-/

namespace NameRelay

/-! ## Dials -/

/-- What there is to see of the timers of a relay. -/
structure Dial where
  /-- Whether the host grants a request for a timer, by its number. -/
  grants : Nat → Bool
  /-- How many timers were granted. -/
  granted : Nat
  armed : List ArmedTimer
  /-- The timer that the relay remembers for an event. -/
  timer? : TimerEvent → Option Nat
  /-- The time between two transmissions of an interface. -/
  pacing? : Nat → Option Nat
  /-- The interfaces over which units went, in order. -/
  gone : List Nat

namespace Dial

/-- The relay remembers another timer for the event, or none. -/
def remember (d : Dial) (event : TimerEvent) (timer : Option Nat) : Dial :=
  { d with timer? := Function.update d.timer? event timer }

/-- The host grants a timer. -/
def grant (d : Dial) (delay : Nat) (event : TimerEvent) : Dial :=
  { d with
    granted := d.granted + 1
    armed := d.armed ++ [⟨d.granted + 1, delay, event⟩] }

/-- A timer is granted and remembered. -/
def set (d : Dial) (delay : Nat) (event : TimerEvent) : Dial :=
  (d.grant delay event).remember event (some (d.granted + 1))

/-- A timer is armed no longer. -/
def disarm (d : Dial) (handle : Nat) : Dial :=
  { d with armed := d.armed.filter (·.handle != handle) }

/-- A unit goes out over an interface. -/
def give (d : Dial) (index : Nat) : Dial := { d with gone := d.gone ++ [index] }

/-- The interface need not wait between two transmissions, or may not be able to. -/
def Free (d : Dial) (index : Nat) : Prop := d.pacing? index = none ∨ ∃ n, d.grants n = false

/-- A timer is set for an interface that waits for none, as long as its pacing says, or a unit goes
    out over a free interface. -/
inductive Beat : Dial → Dial → Prop where
  | set {d : Dial} {index delay : Nat} (hnone : d.timer? (.clearToSend index) = none)
      (hpacing : d.pacing? index = some delay) : Beat d (d.set delay (.clearToSend index))
  | give {d : Dial} {index : Nat} (hfree : d.Free index) : Beat d (d.give index)

/-- Beats lead from one dial to another. -/
abbrev Beats : Dial → Dial → Prop := Relation.ReflTransGen Beat

variable {d e : Dial}

theorem timer?_remember_self (d : Dial) (event : TimerEvent) (timer : Option Nat) :
    (d.remember event timer).timer? event = timer := Function.update_self ..

theorem Beats.grants_eq (h : Beats d e) : e.grants = d.grants := by
  induction h with
  | refl => rfl
  | tail _ hbeat ih => cases hbeat <;> exact ih

theorem Beats.pacing?_eq (h : Beats d e) : e.pacing? = d.pacing? := by
  induction h with
  | refl => rfl
  | tail _ hbeat ih => cases hbeat <;> exact ih

/-- No beat is about the sweep. -/
theorem Beats.timer?_ageing (h : Beats d e) : e.timer? .ageing = d.timer? .ageing := by
  induction h with
  | refl => rfl
  | tail _ hbeat ih => cases hbeat <;> exact ih

/-! ## Dials in step -/

/-- Armed timers go by different handles, and are those that are remembered. -/
structure InStep (d : Dial) : Prop where
  bounded : ∀ t ∈ d.armed, t.handle ≤ d.granted
  handles : (d.armed.map (·.handle)).Nodup
  armed_iff : ∀ event handle, d.timer? event = some handle ↔
    ∃ t ∈ d.armed, t.handle = handle ∧ t.event = event

namespace InStep

variable (h : d.InStep)

include h

theorem timer?_of_mem {t : ArmedTimer} (ht : t ∈ d.armed) : d.timer? t.event = some t.handle :=
  (h.armed_iff _ _).2 ⟨t, ht, rfl, rfl⟩

theorem eq_of_handle {t u : ArmedTimer} (ht : t ∈ d.armed) (hu : u ∈ d.armed)
    (hsame : t.handle = u.handle) : t = u :=
  List.inj_on_of_nodup_map h.handles ht hu hsame

/-- There is one timer for an event at most. -/
theorem eq_of_event {t u : ArmedTimer} (ht : t ∈ d.armed) (hu : u ∈ d.armed)
    (hsame : t.event = u.event) : t = u := by
  refine h.eq_of_handle ht hu (Option.some.inj ?_)
  rw [← h.timer?_of_mem ht, hsame, h.timer?_of_mem hu]

theorem nodup_events : (d.armed.map (·.event)).Nodup :=
  List.Nodup.map_on (fun _ ht _ hu => h.eq_of_event ht hu) h.handles.of_map

/-- A timer may be set for an event that none is remembered for. -/
theorem set {event : TimerEvent} (hnone : d.timer? event = none) (delay : Nat) :
    (d.set delay event).InStep := by
  let new : ArmedTimer := ⟨d.granted + 1, delay, event⟩
  have hmem (t : ArmedTimer) : t ∈ d.armed ++ [new] ↔ t ∈ d.armed ∨ t = new := by
    rw [List.mem_append, List.mem_singleton]
  have hother (t : ArmedTimer) (ht : t ∈ d.armed) : t.handle ≠ d.granted + 1 :=
    Nat.ne_of_lt (Nat.lt_succ_of_le (h.bounded t ht))
  refine ⟨fun t ht => ?_, ?_, fun e handle => ?_⟩
  · rcases (hmem t).1 ht with hold | rfl
    · exact Nat.le_succ_of_le (h.bounded t hold)
    · exact Nat.le_refl _
  · have happend : (d.armed ++ [new]).map (·.handle) =
        d.armed.map (·.handle) ++ [d.granted + 1] := List.map_append
    refine happend ▸ List.nodup_append.2 ⟨h.handles, List.nodup_singleton _, fun a ha b hb => ?_⟩
    obtain ⟨t, ht, rfl⟩ := List.mem_map.1 ha
    rw [List.mem_singleton.1 hb]
    exact hother t ht
  · change Function.update d.timer? event (some (d.granted + 1)) e = some handle ↔
      ∃ t ∈ d.armed ++ [new], t.handle = handle ∧ t.event = e
    rw [Function.update_apply]
    split
    · rename_i he
      subst he
      constructor
      · rintro ⟨⟩
        exact ⟨new, (hmem new).2 (.inr rfl), rfl, rfl⟩
      · rintro ⟨t, ht, rfl, hevent⟩
        rcases (hmem t).1 ht with hold | rfl
        · cases (hevent ▸ h.timer?_of_mem hold).symm.trans hnone
        · rfl
    · rename_i he
      rw [h.armed_iff]
      refine exists_congr fun t => and_congr_left fun hboth => ⟨fun ht => (hmem t).2 (.inl ht), ?_⟩
      intro ht
      rcases (hmem t).1 ht with hold | rfl
      · exact hold
      · exact absurd hboth.2.symm he

theorem give (index : Nat) : (d.give index).InStep := ⟨h.bounded, h.handles, h.armed_iff⟩

theorem beats (hbeats : Beats d e) : e.InStep := by
  induction hbeats with
  | refl => exact h
  | tail _ hbeat ih =>
    cases hbeat with
    | set hnone => exact ih.set hnone _
    | give => exact ih.give _

/-- A timer may go off if it is forgotten. -/
theorem disarm {t : ArmedTimer} (ht : t ∈ d.armed) :
    ((d.disarm t.handle).remember t.event none).InStep := by
  have hmem (u : ArmedTimer) : u ∈ d.armed.filter (·.handle != t.handle) ↔
      u ∈ d.armed ∧ u.event ≠ t.event := by
    rw [List.mem_filter, bne_iff_ne]
    refine and_congr_right fun hu => not_congr ⟨fun hsame => ?_, fun hsame => ?_⟩
    · rw [h.eq_of_handle hu ht hsame]
    · rw [h.eq_of_event hu ht hsame]
  refine ⟨fun u hu => h.bounded u ((hmem u).1 hu).1,
    h.handles.sublist (List.filter_sublist.map _), fun event handle => ?_⟩
  change Function.update d.timer? t.event none event = some handle ↔
    ∃ u ∈ d.armed.filter (·.handle != t.handle), u.handle = handle ∧ u.event = event
  rw [Function.update_apply]
  split
  · rename_i hevent
    refine ⟨fun hnone => (nomatch hnone), ?_⟩
    rintro ⟨u, hu, -, rfl⟩
    exact absurd hevent ((hmem u).1 hu).2
  · rename_i hevent
    rw [h.armed_iff]
    refine exists_congr fun u => and_congr_left fun hboth => ?_
    rw [hmem, hboth.2, and_iff_left hevent]

/-- Something else than the timers may change. -/
theorem congr (harmed : e.armed = d.armed) (hgranted : e.granted = d.granted)
    (htimer : e.timer? = d.timer?) : e.InStep where
  bounded := by
    rw [harmed, hgranted]
    exact h.bounded
  handles := by
    rw [harmed]
    exact h.handles
  armed_iff := by
    rw [harmed, htimer]
    exact h.armed_iff

end InStep

/-- Without timers there is nothing to be out of step. -/
theorem inStep_of_none (harmed : d.armed = []) (htimer : ∀ event, d.timer? event = none) :
    d.InStep := by
  refine ⟨?_, ?_, fun event handle => ?_⟩ <;> simp [harmed, htimer]

end Dial

/-- The interface over which an effect sends. -/
def Effect.over? : Effect → Option Nat
  | .send index _ _ => some index
  | _ => none

/-- What the dial shows of an interface. -/
def Interface.hands (i : Interface) : Option Nat × Option Nat := (i.timer, i.pacing)

namespace Relay

variable {r s : Relay} {index : Nat}

/-! ## The dial of a relay -/

/-- The timer that the relay remembers for an event. -/
def timerFor? (r : Relay) : TimerEvent → Option Nat
  | .ageing => r.ageingTimer
  | .clearToSend index => r.timer? index

/-- The time between two transmissions of an interface. -/
def pacing? (r : Relay) (index : Nat) : Option Nat := r.interfaces[index]?.bind (·.pacing)

/-- The relay as far as its timers go. -/
def dial (r : Relay) : Dial where
  grants := r.host.grants
  granted := r.host.granted
  armed := r.host.armed
  timer? := r.timerFor?
  pacing? := r.pacing?
  gone := r.host.effects.filterMap Effect.over?

theorem dial_of_links (h : s.links = r.links) : s.dial = r.dial := by
  have hlinks (r : Relay) : r.links.dial = r.dial := by
    have hgone : (r.host.effects.filter Effect.isOutward).filterMap Effect.over? =
        r.host.effects.filterMap Effect.over? := by
      rw [List.filterMap_filter]
      congr 1
      funext effect
      cases effect <;> rfl
    exact congrArg (fun gone => { r.dial with gone }) hgone
  rw [← hlinks s, h, hlinks]

/-- What interfaces have besides timers and pacing is not shown. -/
theorem dial_withInterfaces (r : Relay) (faces : Slots Face) {interfaces : List Interface}
    (h : interfaces.map Interface.hands = r.interfaces.map Interface.hands) :
    ({ r with faces, interfaces } : Relay).dial = r.dial := by
  have hread {α : Type} (f : Option Nat × Option Nat → Option α) (index : Nat) :
      interfaces[index]?.bind (fun i => f i.hands) =
        r.interfaces[index]?.bind fun i => f i.hands := by
    have hmap := congrArg (fun l => l[index]?.bind f) h
    simp only [List.getElem?_map, Option.bind_map] at hmap
    exact hmap
  have htimer : ({ r with faces, interfaces } : Relay).timerFor? = r.timerFor? := by
    funext event
    cases event with
    | ageing => rfl
    | clearToSend index => exact hread (·.1) index
  have hpacing : ({ r with faces, interfaces } : Relay).pacing? = r.pacing? :=
    funext (hread (·.2))
  simp only [dial, htimer, hpacing]

theorem dial_modifyInterface (r : Relay) (index : Nat) {f : Interface → Interface}
    (h : ∀ i, (f i).hands = i.hands) : (r.modifyInterface index f).dial = r.dial :=
  dial_withInterfaces r r.faces (map_modify_of_eq _ _ _ _ h)

/-- An interface that there is may wait for another timer, and any for none. -/
theorem dial_withTimer {timer : Option Nat}
    (h : r.interfaces[index]?.bind (fun _ => timer) = timer) :
    (r.modifyInterface index fun i => { i with timer }).dial =
      r.dial.remember (.clearToSend index) timer := by
  have htimer : (r.modifyInterface index fun i => { i with timer }).timerFor? =
      Function.update r.timerFor? (.clearToSend index) timer := by
    funext event
    rw [Function.update_apply]
    cases event with
    | ageing => rfl
    | clearToSend j => simp only [timerFor?, timer?_modifyInterface, h, TimerEvent.clearToSend.injEq]
  have hpacing : (r.modifyInterface index fun i => { i with timer }).pacing? = r.pacing? := by
    funext j
    rw [pacing?, modifyInterface, List.getElem?_modify, Option.map_eq_map, Option.bind_map]
    congr 1
    funext i
    simp only [Function.comp_apply]
    split <;> rfl
  simp only [dial, htimer, hpacing]
  rfl

theorem dial_forget (r : Relay) (index : Nat) :
    (r.modifyInterface index fun i => { i with timer := none }).dial =
      r.dial.remember (.clearToSend index) none :=
  dial_withTimer (Option.bind_fun_none _)

/-- Effects that send nothing are not shown. -/
theorem dial_emit (r : Relay) {effect : Effect} (h : effect.over? = none) :
    (r.emit effect).dial = r.dial := by
  have hgone : (r.host.effects ++ [effect]).filterMap Effect.over? =
      r.host.effects.filterMap Effect.over? := by
    rw [List.filterMap_append, List.filterMap_cons_none h, List.filterMap_nil, List.append_nil]
  exact congrArg (fun gone => { r.dial with gone }) hgone

/-- A timer is granted, or not every request is. -/
theorem setTimer_cases (r : Relay) (delay : Nat) (event : TimerEvent) :
    (∃ s, r.setTimer delay event = (some (r.host.granted + 1), s) ∧
      s.interfaces = r.interfaces ∧ s.dial = r.dial.grant delay event) ∨
    ∃ s, r.setTimer delay event = (none, s) ∧ s.dial = r.dial ∧ ∃ n, r.host.grants n = false := by
  simp only [setTimer, Host.setTimer]
  split
  · let granted : Host := { r.host with
      requested := r.host.requested + 1
      granted := r.host.granted + 1
      armed := r.host.armed ++ [⟨r.host.granted + 1, delay, event⟩] }
    exact .inl ⟨_, rfl, rfl, dial_emit { r with host := granted } rfl⟩
  · rename_i hrefused
    let asked : Host := { r.host with requested := r.host.requested + 1 }
    exact .inr ⟨_, rfl, dial_emit { r with host := asked } rfl, r.host.requested,
      Bool.eq_false_of_not_eq_true hrefused⟩

/-! ## Sending -/

theorem dial_release (r : Relay) (key : FaceKey) : (r.release key).2.dial = r.dial := by
  unfold release
  split
  · rfl
  · split
    · rfl
    · split
      · rfl
      · rename_i i hi
        dsimp only
        rw [logAll_withQueues]
        exact (dial_of_links (links_logAll _ _)).trans
          (dial_withInterfaces r _ (map_set_of_eq _ hi rfl))

theorem dial_settle (r : Relay) (key : FaceKey) : (r.settle key).dial = r.dial := by
  unfold settle
  split
  · rfl
  · dsimp only
    split
    · exact dial_release _ key
    · rfl

/-- A unit of the interface goes out, and no timer is touched. -/
theorem dial_sendNext (h : r.sendNext index = some s) : s.dial = r.dial.give index := by
  unfold sendNext at h
  split at h
  · cases h
  · rename_i i hi
    split at h
    · cases h
    · rename_i unit queue _
      have hpopped : ({ r with interfaces := r.interfaces.set index { i with queue } } :
          Relay).dial = r.dial := dial_withInterfaces r r.faces (map_set_of_eq _ hi rfl)
      have hsent : (({ r with interfaces := r.interfaces.set index { i with queue } } : Relay).emit
          (.send index unit.destination unit.bytes)).dial = r.dial.give index := by
        rw [← hpopped]
        exact congrArg (fun gone => { Relay.dial _ with gone }) List.filterMap_append
      dsimp only at h
      split at h
      · cases h
        exact (dial_settle _ _).trans hsent
      · cases h
        exact hsent

/-- A free interface is drained, one unit with each beat. -/
theorem beats_drain (hfree : r.dial.Free index) : Dial.Beats r.dial (r.drain index).dial := by
  fun_induction drain r index with
  | case1 r next hnext ih =>
    rw [dial_sendNext hnext] at ih
    exact .head (.give hfree) (ih hfree)
  | case2 => exact .refl

theorem beats_flush (hfree : r.dial.Free index) : Dial.Beats r.dial (r.flush index).dial := by
  have hmarked (r : Relay) (draining : Bool) : (r.markDraining index draining).dial = r.dial :=
    dial_modifyInterface r index fun _ => rfl
  unfold flush
  rw [hmarked]
  rw [← hmarked r true] at hfree ⊢
  exact beats_drain hfree

/-- An interface that may have a timer is started by the setting of one. -/
theorem dial_armed {s : Relay} {delay : Nat} {i : Interface} (hi : r.interfaces[index]? = some i)
    (hs : s.interfaces = r.interfaces)
    (hgranted : s.dial = r.dial.grant delay (.clearToSend index)) :
    (s.modifyInterface index fun i => { i with timer := some (r.host.granted + 1) }).dial =
      r.dial.set delay (.clearToSend index) := by
  rw [dial_withTimer (by rw [hs, hi, Option.bind_some]), hgranted]
  rfl

theorem beats_kick (r : Relay) (index : Nat) : Dial.Beats r.dial (r.kick index).dial := by
  unfold kick
  split
  · exact .refl
  · rename_i i hi
    split
    · exact .refl
    · split
      · rename_i hpacing
        have hnone : r.pacing? index = none := by rw [pacing?, hi, Option.bind_some, hpacing]
        exact beats_flush (.inl hnone)
      · rename_i delay hpacing
        split
        · exact .refl
        · rename_i htimer
          rcases setTimer_cases r delay (.clearToSend index) with
            ⟨s, hset, hs, hgranted⟩ | ⟨s, hset, hs, hrefuses⟩ <;> rw [hset]
          · have hnone : r.timer? index = none := by
              rw [timer?, hi, Option.bind_some]
              exact Option.not_isSome_iff_eq_none.1 htimer
            have hdelay : r.pacing? index = some delay := by
              rw [pacing?, hi, Option.bind_some, hpacing]
            simp only [dial_armed hi hs hgranted]
            exact .single (.set hnone hdelay)
          · have hlogged := (dial_of_links (links_log s .warn
              s!"No timer for interface {index}, sending unpaced")).trans hs
            simp only
            rw [← hlogged]
            exact beats_flush (hlogged ▸ .inr hrefuses)

theorem beats_enqueue (r : Relay) (key : FaceKey) (suite : Suite) (bytes : Bytes) :
    Dial.Beats r.dial (r.enqueue key suite bytes).2.dial := by
  unfold enqueue
  split
  · exact .refl
  · split
    · exact .refl
    · rename_i index _
      split
      · rw [dial_of_links (links_log _ _ _)]
      · have hreleased := dial_release (r.modifyFace key fun f =>
          { f with queue := f.queue ++ [⟨suite, bytes⟩] }) key
        dsimp only
        split
        · rename_i s hs
          rw [hs] at hreleased
          exact (hreleased : s.dial = r.dial) ▸ beats_kick s index
        · rename_i s hs
          rw [hs] at hreleased
          exact (hreleased : s.dial = r.dial) ▸ .refl

/-- A new interface waits for no timer and is not paced. -/
theorem dial_insertInterface (r : Relay) (address : FaceAddress) (mtu : Nat) (flags : FaceFlags) :
    ({ r with interfaces := r.interfaces ++ [.fresh address mtu flags] } : Relay).dial = r.dial := by
  have hread {f : Interface → Option Nat} (hf : f (.fresh address mtu flags) = none) (index : Nat) :
      (r.interfaces ++ [.fresh address mtu flags])[index]?.bind f = r.interfaces[index]?.bind f := by
    rw [List.getElem?_append]
    split
    · rfl
    · rename_i hbound
      rw [List.getElem?_eq_none (Nat.le_of_not_lt hbound), List.getElem?_singleton]
      split
      · exact hf
      · rfl
  have htimer : ({ r with interfaces := r.interfaces ++ [.fresh address mtu flags] } :
      Relay).timerFor? = r.timerFor? := by
    funext event
    cases event with
    | ageing => rfl
    | clearToSend index => exact hread rfl index
  have hpacing : ({ r with interfaces := r.interfaces ++ [.fresh address mtu flags] } :
      Relay).pacing? = r.pacing? := funext (hread rfl)
  simp only [dial, htimer, hpacing]

theorem dial_removeFace (r : Relay) (key : FaceKey) : (r.removeFace key).2.dial = r.dial := by
  have hkept : (withdraw key r.interfaces).2.map Interface.hands =
      r.interfaces.map Interface.hands := by
    rw [withdraw_snd, List.map_map]
    rfl
  unfold removeFace
  split
  · rfl
  · rename_i faces _
    exact (dial_of_links (links_log _ _ _)).trans (dial_withInterfaces r faces hkept)

/-- Every act is made of beats, a change of pacing apart. -/
theorem acrossActs_beats : AcrossActs fun r s => Dial.Beats r.dial s.dial where
  quiet h := by rw [dial_of_links h]
  trans := .trans
  enqueue := beats_enqueue
  newFace _ _ _ := .refl
  newApplicationFace _ _ := .refl
  removeFace r key := by rw [dial_removeFace]
  newInterface r address mtu flags := by rw [dial_insertInterface]

/-- Of the dial only the pacing changes when an interface is paced. -/
theorem dial_setPacing (r : Relay) (index : Nat) (pacing : Option Nat) :
    ∃ pacing?, (r.setPacing index pacing).2.dial = { r.dial with pacing? } := by
  unfold setPacing
  split
  · refine ⟨(r.modifyInterface index fun i => { i with pacing }).pacing?, ?_⟩
    have htimer : (r.modifyInterface index fun i => { i with pacing }).timerFor? = r.timerFor? := by
      funext event
      cases event with
      | ageing => rfl
      | clearToSend j =>
        refine timer?_of_timing ?_ j
        exact congrArg (fun timers => (r.host.armed, r.host.granted, timers))
          (map_modify_of_eq _ _ _ _ fun _ => rfl)
    simp only [dial, htimer]
    rfl
  · exact ⟨r.pacing?, rfl⟩

/-- A call that is not about timers is made of beats, or changes nothing but the pacing. -/
theorem dial_perform (r : Relay) {c : Call} (hc : c.isTimed = false) :
    Dial.Beats r.dial (r.perform c).dial ∨ ∃ pacing?, (r.perform c).dial = { r.dial with pacing? } := by
  by_cases hpace : ∃ index pacing, c = .setPacing index pacing
  · obtain ⟨index, pacing, rfl⟩ := hpace
    exact .inr (dial_setPacing r index pacing)
  · exact .inl (acrossActs_beats.perform r hc fun index pacing hc => hpace ⟨index, pacing, hc⟩)

/-! ## Calls about timers -/

theorem dial_withAgeingTimer (r : Relay) (timer : Option Nat) :
    ({ r with ageingTimer := timer } : Relay).dial = r.dial.remember .ageing timer := by
  have htimer : ({ r with ageingTimer := timer } : Relay).timerFor? =
      Function.update r.timerFor? .ageing timer := by
    funext event
    rw [Function.update_apply]
    cases event <;> rfl
  simp only [dial, htimer]
  rfl

theorem dial_armAgeing (r : Relay) : r.armAgeing.2.dial = r.dial ∨
    ∃ delay, r.armAgeing.2.dial = r.dial.set delay .ageing := by
  unfold armAgeing
  rcases setTimer_cases r r.timeouts.ageingInterval .ageing with
    ⟨s, hset, -, hs⟩ | ⟨s, hset, hs, -⟩ <;> rw [hset]
  · refine .inr ⟨r.timeouts.ageingInterval, ?_⟩
    rw [dial_withAgeingTimer, hs]
    rfl
  · exact .inl hs

/-- A start sets the timer for the sweep if there is none. -/
theorem dial_start (r : Relay) : r.start.2.dial = r.dial ∨
    r.ageingTimer = none ∧ ∃ delay, r.start.2.dial = r.dial.set delay .ageing := by
  unfold start
  cases htimer : r.ageingTimer with
  | some handle => exact .inl (dial_of_links (links_log r _ _))
  | none =>
    have harmed := dial_armAgeing r
    simp only [Option.isSome_none, Bool.false_eq_true, if_false]
    cases harm : r.armAgeing with
    | mk outcome s =>
      rw [harm] at harmed
      cases outcome with
      | error => exact harmed.imp_right fun hset => ⟨trivial, hset⟩
      | ok =>
        simp only [dial_of_links (links_log s _ _)]
        exact harmed.imp_right fun hset => ⟨trivial, hset⟩

/-- The sweep forgets its timer and works in beats, and then the next one is set if it is granted. -/
theorem dial_onTimer_ageing (r : Relay) : ∃ d, Dial.Beats (r.dial.remember .ageing none) d ∧
    ((r.onTimer .ageing).dial = d ∨ ∃ delay, (r.onTimer .ageing).dial = d.set delay .ageing) := by
  have hswept := acrossActs_beats.age { r with ageingTimer := none }
  have harmed := dial_armAgeing ({ r with ageingTimer := none } : Relay).age
  rw [dial_withAgeingTimer] at hswept
  refine ⟨_, hswept, ?_⟩
  rcases onTimer_ageing_cases r rfl with hs | ⟨text, hs⟩ <;> rw [hs]
  · exact harmed
  · rw [dial_of_links (links_log _ _ _)]
    exact harmed

/-- An interface that may send forgets its timer, gives one unit away if it has any, and is started
    anew. -/
theorem onTimer_clearToSend_cases (r : Relay) (index : Nat) :
    ∃ s : Relay, r.onTimer (.clearToSend index) = s.kick index ∧ (r.Balanced → s.Balanced) ∧
      (s.dial = r.dial.remember (.clearToSend index) none ∨
        s.dial = (r.dial.remember (.clearToSend index) none).give index) := by
  have hforgot (hb : r.Balanced) :
      (r.modifyInterface index fun i => { i with timer := none }).Balanced :=
    hb.of_queues (queues_modifyInterface r index fun _ => rfl)
  refine ⟨_, rfl, ?_⟩
  cases hnext : (r.modifyInterface index fun i => { i with timer := none }).sendNext index with
  | none => exact ⟨hforgot, .inl (dial_forget r index)⟩
  | some s =>
    refine ⟨fun hb => (hforgot hb).sendNext hnext, .inr ?_⟩
    rw [← dial_forget]
    exact dial_sendNext hnext

theorem mem_armed_foldl_cancelTimer {handles : List Nat} {r : Relay} {t : ArmedTimer}
    (ht : t ∈ (handles.foldl cancelTimer r).host.armed) :
    t ∈ r.host.armed ∧ t.handle ∉ handles := by
  induction handles generalizing r with
  | nil => exact ⟨ht, nofun⟩
  | cons handle handles ih =>
    obtain ⟨harmed, hrest⟩ := ih ht
    obtain ⟨hold, hne⟩ := List.mem_filter.1 harmed
    exact ⟨hold, List.not_mem_cons_of_ne_of_not_mem (bne_iff_ne.1 hne) hrest⟩

/-- The timers that the relay remembers are the ones that a stop takes back. -/
theorem mem_of_timerFor? {event : TimerEvent} {handle : Nat} (h : r.timerFor? event = some handle) :
    handle ∈ (r.ageingTimer :: r.interfaces.map (·.timer)).filterMap id := by
  refine List.mem_filterMap.2 ⟨some handle, ?_, rfl⟩
  cases event with
  | ageing => exact h ▸ List.mem_cons_self
  | clearToSend index =>
    obtain ⟨i, hi, htimer⟩ := Option.bind_eq_some_iff.1 h
    exact List.mem_cons_of_mem _ (htimer ▸ List.mem_map_of_mem (List.mem_of_getElem? hi))

theorem timerFor?_stop (r : Relay) (event : TimerEvent) : r.stop.timerFor? event = none := by
  cases event with
  | ageing => rfl
  | clearToSend index =>
    refine Option.eq_none_iff_forall_ne_some.2 fun handle h => ?_
    simp only [timerFor?, timer?, stop, List.getElem?_map, Option.bind_map] at h
    obtain ⟨_, -, hnone⟩ := Option.bind_eq_some_iff.1 h
    cases hnone

/-- If all that is armed is remembered, a stop leaves nothing armed. -/
theorem armed_stop (h : r.dial.InStep) : r.stop.host.armed = [] := by
  refine List.eq_nil_iff_forall_not_mem.2 fun t ht => ?_
  let handles := (r.ageingTimer :: r.interfaces.map (·.timer)).filterMap id
  have hleft : t ∈ (handles.foldl cancelTimer r).host.armed := ht
  obtain ⟨harmed, hkept⟩ := mem_armed_foldl_cancelTimer hleft
  exact hkept (mem_of_timerFor? (h.timer?_of_mem harmed))

/-! ## Runs -/

/-- The host takes a timer off its list. -/
def disarm (r : Relay) (handle : Nat) : Relay :=
  { r with host := { r.host with armed := r.host.armed.filter (·.handle != handle) } }

theorem dial_disarm (r : Relay) (handle : Nat) : (r.disarm handle).dial = r.dial.disarm handle := rfl

/-- A timer goes off: the host takes it off its list and tells the relay. -/
def fire (r : Relay) (t : ArmedTimer) : Relay := (r.disarm t.handle).onTimer t.event

end Relay

/-- Whether a call is about a timer that went off. -/
def Call.isExpiry : Call → Bool
  | .onTimer _ | .expire _ => true
  | _ => false

namespace Relay

variable {r s : Relay}

/-- A state that a relay reaches if it is told of armed timers only, of each when it goes off. The
    host may refuse any timer. -/
inductive Driven : Relay → Prop where
  | new {r : Relay} (h : r.IsNew) : Driven r
  | perform {r : Relay} (h : Driven r) {c : Call} (hc : c.isExpiry = false) : Driven (r.perform c)
  | fire {r : Relay} (h : Driven r) {t : ArmedTimer} (ht : t ∈ r.host.armed) : Driven (r.fire t)

theorem IsNew.inStep (h : r.IsNew) : r.dial.InStep := by
  have hnone (now : Instant) (digest : Bytes → Option Bytes) (grants : Nat → Bool) (c : Config) :
      (withLimits (Host.fresh now digest grants) c).dial.InStep :=
    Dial.inStep_of_none rfl fun event => by cases event <;> rfl
  cases h with
  | fresh now digest grants => exact hnone _ _ _ _
  | configured now digest grants c h =>
    have hconfigured := configured_related (R := fun r s => r.dial.InStep → s.dial.InStep)
      (fun _ => id) (fun h h' => h' ∘ h)
      (fun r address mtu flags h => h.beats (acrossActs_beats.addInterface r address mtu flags))
      (fun r index pacing h => by
        obtain ⟨pacing?, hs⟩ := dial_setPacing r index pacing
        exact h.congr (by rw [hs]) (by rw [hs]) (by rw [hs]))
      (fun r index address flags h => h.beats (acrossActs_beats.addFace r index address flags))
      (fun r name suite destination h => by rwa [dial_of_links (links_addRoute r _ _ _)])
      (Host.fresh now digest grants) c (hnone now digest grants c)
    rwa [h] at hconfigured

/-- No call puts the dial out of step that is not told of a timer. -/
theorem inStep_perform (h : r.dial.InStep) {c : Call} (hc : c.isExpiry = false) :
    (r.perform c).dial.InStep := by
  cases htimed : c.isTimed with
  | false =>
    rcases dial_perform r htimed with hbeats | ⟨pacing?, hs⟩
    · exact h.beats hbeats
    · exact h.congr (by rw [hs]) (by rw [hs]) (by rw [hs])
  | true =>
    cases c with
    | start =>
      rcases dial_start r with hs | ⟨hnone, delay, hs⟩
      · exact (hs ▸ h :)
      · exact (hs ▸ @Dial.InStep.set _ h .ageing hnone delay :)
    | stop => exact Dial.inStep_of_none (armed_stop h) (timerFor?_stop r)
    | onTimer | expire => cases hc
    | _ => cases htimed

/-- A timer that went off and is forgotten may be followed by another. -/
theorem inStep_onTimer {event : TimerEvent} (h : (r.dial.remember event none).InStep) :
    (r.onTimer event).dial.InStep := by
  cases event with
  | ageing =>
    obtain ⟨d, hbeats, hs | ⟨delay, hs⟩⟩ := dial_onTimer_ageing r
    · exact hs ▸ h.beats hbeats
    · have hnone : d.timer? .ageing = none :=
        hbeats.timer?_ageing.trans (Dial.timer?_remember_self r.dial .ageing none)
      exact hs ▸ (h.beats hbeats).set hnone delay
  | clearToSend index =>
    obtain ⟨s, heq, -, hs⟩ := onTimer_clearToSend_cases r index
    have hsent : s.dial.InStep := by
      rcases hs with hs | hs <;> rw [hs]
      · exact h
      · exact h.give index
    exact heq ▸ hsent.beats (beats_kick s index)

theorem inStep_fire (h : r.dial.InStep) {t : ArmedTimer} (ht : t ∈ r.host.armed) :
    (r.fire t).dial.InStep := by
  refine inStep_onTimer ?_
  rw [dial_disarm]
  exact h.disarm ht

theorem Driven.inStep (h : r.Driven) : r.dial.InStep := by
  induction h with
  | new h => exact h.inStep
  | perform _ hc ih => exact inStep_perform ih hc
  | fire _ ht ih => exact inStep_fire ih ht

theorem Driven.performAll (h : r.Driven) {calls : List Call}
    (hcalls : ∀ c ∈ calls, c.isExpiry = false) : (r.performAll calls).Driven := by
  induction calls generalizing r with
  | nil => exact h
  | cons c calls ih =>
    exact ih (h.perform (hcalls c List.mem_cons_self)) fun c hc => hcalls c (List.mem_cons_of_mem _ hc)

/-- The oldest timer for an event is the only one, so it is the one that goes off. -/
theorem perform_expire (h : r.dial.InStep) {t : ArmedTimer} (ht : t ∈ r.host.armed) :
    r.perform (.expire t.event) = r.disarm t.handle := by
  have hfound : r.host.armed.find? (·.event == t.event) = some t := by
    cases hfind : r.host.armed.find? (·.event == t.event) with
    | none => exact absurd (beq_self_eq_true t.event) (List.find?_eq_none.1 hfind t ht)
    | some u =>
      have hsame : u.event = t.event := by simpa using List.find?_some hfind
      exact congrArg some (h.eq_of_event (List.mem_of_find?_eq_some hfind) ht hsame)
  simp only [perform, Host.expire?, hfound, Option.map_some]
  rfl

/-- To drive a relay is one way to run it. -/
theorem Driven.reachable (h : r.Driven) : Reachable r := by
  induction h with
  | new h => exact h.reachable
  | perform _ _ ih => exact ih.perform _
  | @fire r h t ht ih =>
    have hfired := (ih.perform (.expire t.event)).perform (.onTimer t.event)
    rwa [perform_expire h.inStep ht] at hfired

/-- No timer is leaked or doubled: the armed timers are those that the relay remembers, there is one
    for an event at most, and after a stop there are none. -/
theorem timers_in_step (h : r.Driven) :
    (∀ event handle, r.timerFor? event = some handle ↔
      ∃ t ∈ r.host.armed, t.handle = handle ∧ t.event = event) ∧
    (r.host.armed.map (·.handle)).Nodup ∧ (r.host.armed.map (·.event)).Nodup ∧
    r.stop.host.armed = [] :=
  ⟨h.inStep.armed_iff, h.inStep.handles, h.inStep.nodup_events, armed_stop h.inStep⟩

/-- A relay that is started twice, and two interests for a route over a paced interface. -/
def busy : List Call :=
  [.addInterface (.path "own") 0 {}, .setPacing 0 (some 1000), .addFace 0 (.path "next") {},
    .addRoute ⟨.ndn, [[97]], none, .none⟩ .ndn (.face ⟨0, 0⟩), .start, .start,
    .receive 0 [5, 11, 7, 3, 8, 1, 97, 10, 4, 0, 0, 0, 1] (.path "first"),
    .receive 0 [5, 14, 7, 6, 8, 1, 97, 8, 1, 98, 10, 4, 0, 0, 0, 2] (.path "first")]

/-- The host refuses the first timer for the sweep and grants the second. The interests have to wait,
    and the timer that goes off for one is followed by one for the other. -/
theorem busy_in_step :
    let r := (Relay.fresh (Host.fresh ⟨0⟩ (fun _ => none) (· != 0))).performAll busy
    let s := r.fire ⟨2, 1000, .clearToSend 0⟩
    r.host.armed = [⟨1, 1000000, .ageing⟩, ⟨2, 1000, .clearToSend 0⟩] ∧
      s.host.armed = [⟨1, 1000000, .ageing⟩, ⟨3, 1000, .clearToSend 0⟩] ∧
      s.timerFor? (.clearToSend 0) = some 3 ∧ s.stop.host.armed = [] := by
  intro r s
  have hdriven : r.Driven := .performAll (.new (.fresh _ _ _)) (by decide)
  have harmed : r.host.armed = [⟨1, 1000000, .ageing⟩, ⟨2, 1000, .clearToSend 0⟩] := by
    decide +kernel
  have hnext : s.host.armed = [⟨1, 1000000, .ageing⟩, ⟨3, 1000, .clearToSend 0⟩] := by
    decide +kernel
  have hfired : s.Driven := hdriven.fire (by rw [harmed]; simp)
  obtain ⟨hremembered, -, -, hstopped⟩ := timers_in_step hfired
  exact ⟨harmed, hnext, (hremembered _ _).2 ⟨⟨3, 1000, .clearToSend 0⟩, by rw [hnext]; simp, rfl, rfl⟩,
    hstopped⟩

end Relay

end NameRelay
