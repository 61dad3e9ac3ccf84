-- SUMMARY: A paced interface sends when its timer goes off, one unit at a time, and never too early.
import NameRelay.Proofs.Relay.Timers

/-!
# Pacing

Over a paced interface a unit goes out only when its timer goes off, and one at most, as long as the
host grants the timers that it is asked for. `Dial.Passes` says what a call comes to for one
interface: how many units go out, and that a timer that is set takes the time that the pacing says.

From this follows how far apart the units are. On a host that lets no timer go off early, a timer
that is armed after a unit went out is due no sooner than the pacing allows the next one.
-/

namespace NameRelay

namespace Dial

/-- The interface is paced, and the host grants every timer. -/
structure Paced (d : Dial) (index delay : Nat) : Prop where
  grants : ∀ n, d.grants n = true
  pacing : d.pacing? index = some delay

/-- So many units go out over the interface, and timers that are set for it take this long. -/
structure Passes (index delay units : Nat) (d e : Dial) : Prop where
  gone : e.gone.count index = d.gone.count index + units
  grants : e.grants = d.grants
  granted : d.granted ≤ e.granted
  armed : ∀ t ∈ e.armed, t.event = .clearToSend index →
    t ∈ d.armed ∨ d.granted < t.handle ∧ t.delay = delay

variable {d e f : Dial} {index delay n m : Nat}

theorem Paced.not_free (h : d.Paced index delay) : ¬d.Free index := by
  rintro (hnone | ⟨n, hn⟩)
  · cases hnone.symm.trans h.pacing
  · cases hn.symm.trans (h.grants n)

theorem Paced.beats (h : d.Paced index delay) (hbeats : Beats d e) : e.Paced index delay := by
  refine ⟨?_, ?_⟩
  · rw [hbeats.grants_eq]
    exact h.grants
  · rw [hbeats.pacing?_eq]
    exact h.pacing

namespace Passes

theorem trans (h : Passes index delay n d e) (h' : Passes index delay m e f) :
    Passes index delay (n + m) d f where
  gone := by rw [h'.gone, h.gone, Nat.add_assoc]
  grants := h'.grants.trans h.grants
  granted := h.granted.trans h'.granted
  armed t ht hevent := by
    rcases h'.armed t ht hevent with hold | ⟨hnew, hdelay⟩
    · exact h.armed t hold hevent
    · exact .inr ⟨Nat.lt_of_le_of_lt h.granted hnew, hdelay⟩

/-- Nothing more goes out. -/
theorem quietly (h : Passes index delay n d e) (h' : Passes index delay 0 e f) :
    Passes index delay n d f := h.trans h'

/-- Timers may go, and anything happen that is not about timers or units. -/
theorem of_subset (hgone : e.gone = d.gone) (hgrants : e.grants = d.grants)
    (hgranted : e.granted = d.granted) (harmed : ∀ t ∈ e.armed, t ∈ d.armed) :
    Passes index delay 0 d e :=
  ⟨congrArg _ hgone, hgrants, hgranted.ge, fun t ht _ => .inl (harmed t ht)⟩

theorem refl (index delay : Nat) (d : Dial) : Passes index delay 0 d d :=
  of_subset rfl rfl rfl fun _ ht => ht

/-- A timer is set for something else, or takes this long. -/
theorem set {event : TimerEvent} {time : Nat} (h : event = .clearToSend index → time = delay) :
    Passes index delay 0 d (d.set time event) := by
  refine ⟨rfl, rfl, Nat.le_succ _, fun t ht hevent => ?_⟩
  refine (List.mem_append.1 ht).imp_right fun hnew => ?_
  rw [List.mem_singleton.1 hnew] at hevent ⊢
  exact ⟨Nat.lt_succ_self _, h hevent⟩

/-- A unit goes out over this interface or another. -/
theorem give (d : Dial) (other : Nat) :
    Passes index delay (if other = index then 1 else 0) d (d.give other) := by
  refine ⟨?_, rfl, Nat.le_refl _, fun _ ht _ => .inl ht⟩
  simp only [Dial.give, List.count_append, List.count_singleton, beq_iff_eq]

theorem beats (hd : d.Paced index delay) (hbeats : Beats d e) : Passes index delay 0 d e := by
  induction hbeats with
  | refl => exact refl index delay d
  | @tail b c hbefore hbeat ih =>
    have hpaced := hd.beats hbefore
    refine ih.quietly ?_
    cases hbeat with
    | set _ hpacing =>
      refine set fun hevent => ?_
      cases hevent
      exact Option.some.inj (hpacing.symm.trans hpaced.pacing)
    | @give other hfree =>
      have hother : other ≠ index := by
        rintro rfl
        exact hpaced.not_free hfree
      have hgiven : Passes index delay _ b (b.give other) := give b other
      rwa [if_neg hother] at hgiven

end Passes

end Dial

namespace Relay

variable {r s : Relay} {index delay : Nat}

/-! ## Calls -/

/-- How many units went out over an interface. -/
def sentOver (r : Relay) (index : Nat) : Nat := (r.host.effects.filterMap Effect.over?).count index

theorem passes_forget (r : Relay) (event : TimerEvent) (index delay : Nat) :
    Dial.Passes index delay 0 r.dial (r.dial.remember event none) :=
  .of_subset rfl rfl rfl fun _ ht => ht

theorem passes_disarm (r : Relay) (handle index delay : Nat) :
    Dial.Passes index delay 0 r.dial (r.disarm handle).dial :=
  .of_subset rfl rfl rfl fun _ ht => (List.mem_filter.1 ht).1

theorem passes_stop (r : Relay) (index delay : Nat) :
    Dial.Passes index delay 0 r.dial r.stop.dial := by
  have hcancelled (handles : List Nat) (s : Relay) :
      Dial.Passes index delay 0 s.dial (handles.foldl cancelTimer s).dial := by
    induction handles generalizing s with
    | nil => exact .refl index delay s.dial
    | cons handle handles ih =>
      have hone : ((s.disarm handle).emit (.timerCancelled handle)).dial = (s.disarm handle).dial :=
        dial_emit _ rfl
      exact (hone ▸ passes_disarm s handle index delay).quietly (ih _)
  exact (hcancelled _ r).quietly (.of_subset rfl rfl rfl fun _ ht => ht)

theorem passes_start (r : Relay) (index delay : Nat) :
    Dial.Passes index delay 0 r.dial r.start.2.dial := by
  rcases dial_start r with hs | ⟨-, time, hs⟩ <;> rw [hs]
  · exact .refl index delay r.dial
  · exact .set nofun

theorem passes_ageing (h : r.dial.Paced index delay) :
    Dial.Passes index delay 0 r.dial (r.onTimer .ageing).dial := by
  obtain ⟨d, hbeats, hs⟩ := dial_onTimer_ageing r
  have hswept := (passes_forget r .ageing index delay).quietly (.beats ⟨h.grants, h.pacing⟩ hbeats)
  rcases hs with hs | ⟨time, hs⟩ <;> rw [hs]
  · exact hswept
  · exact hswept.quietly (.set nofun)

/-- A timer of an interface lets one unit go out over that interface, or none. -/
theorem passes_clearToSend (h : r.dial.Paced index delay) (j : Nat) :
    ∃ n, Dial.Passes index delay n r.dial (r.onTimer (.clearToSend j)).dial ∧
      n ≤ if j = index then 1 else 0 := by
  obtain ⟨s, heq, -, hs⟩ := onTimer_clearToSend_cases r j
  have hforgot := passes_forget r (.clearToSend j) index delay
  rw [heq]
  rcases hs with hs | hs
  · refine ⟨0, ?_, Nat.zero_le _⟩
    exact hforgot.quietly (hs ▸ .beats (hs ▸ ⟨h.grants, h.pacing⟩) (beats_kick s j))
  · refine ⟨_, ?_, Nat.le_refl _⟩
    have hgiven := hforgot.trans (.give _ j)
    rw [Nat.zero_add] at hgiven
    exact hgiven.quietly (hs ▸ .beats (hs ▸ ⟨h.grants, h.pacing⟩) (beats_kick s j))

/-- No timer of another event lets anything out over the interface. -/
theorem passes_onTimer (h : r.dial.Paced index delay) {event : TimerEvent}
    (hother : event ≠ .clearToSend index) :
    Dial.Passes index delay 0 r.dial (r.onTimer event).dial := by
  cases event with
  | ageing => exact passes_ageing h
  | clearToSend j =>
    obtain ⟨n, hpasses, hn⟩ := passes_clearToSend h j
    rw [if_neg fun hj => hother (congrArg _ hj)] at hn
    exact Nat.le_zero.1 hn ▸ hpasses

/-- Only the timer of the interface lets anything out over it. -/
theorem passes_perform (h : r.dial.Paced index delay) {c : Call}
    (hother : c ≠ .onTimer (.clearToSend index)) :
    Dial.Passes index delay 0 r.dial (r.perform c).dial := by
  cases htimed : c.isTimed with
  | false =>
    rcases dial_perform r htimed with hbeats | ⟨pacing?, hs⟩
    · exact .beats h hbeats
    · rw [hs]
      exact .of_subset rfl rfl rfl fun _ ht => ht
  | true =>
    cases c with
    | start => exact passes_start r index delay
    | stop => exact passes_stop r index delay
    | onTimer event => exact passes_onTimer h fun hevent => hother (congrArg _ hevent)
    | expire event =>
      simp only [perform]
      split
      · rename_i handle host hexpire
        obtain ⟨t, -, heq⟩ := Option.map_eq_some_iff.1 hexpire
        cases heq
        exact passes_disarm r t.handle index delay
      · exact .refl index delay r.dial
    | _ => cases htimed

/-! ## The next timer -/

/-- A paced interface that is made to send and waits for no timer is given one, unless it has nothing
    to send. -/
theorem dial_kick_of_paced (hb : r.Balanced) (h : r.dial.Paced index delay)
    (hnone : r.dial.timer? (.clearToSend index) = none) :
    r.kick index = r ∧ r.units index = [] ∨
      (r.kick index).dial = r.dial.set delay (.clearToSend index) := by
  obtain ⟨i, hi, hpacing⟩ := Option.bind_eq_some_iff.1 h.pacing
  have htimer : i.timer = none := by
    have hnone : r.timer? index = none := hnone
    rwa [timer?, hi, Option.bind_some] at hnone
  have hcalm := hb.calm i (List.mem_of_getElem? hi)
  unfold kick
  simp only [hi, hcalm, hpacing, htimer, Bool.false_or, Option.isSome_none, Bool.false_eq_true,
    if_false]
  split
  · rename_i hempty
    refine .inl ⟨rfl, ?_⟩
    rw [units_of_interface hi]
    exact (hb.rings i (List.mem_of_getElem? hi)).isEmpty_iff.1 hempty
  · rcases setTimer_cases r delay (.clearToSend index) with
      ⟨s, hset, hs, hgranted⟩ | ⟨s, -, -, n, hn⟩
    · rw [hset]
      exact .inr (dial_armed hi hs hgranted)
    · cases hn.symm.trans (h.grants n)

/-- If units are left after the timer of the interface went off, the next timer is armed. -/
theorem rearmed_of_units (hb : r.Balanced) (h : r.dial.Paced index delay)
    (hunits : (r.onTimer (.clearToSend index)).units index ≠ []) :
    ∃ t ∈ (r.onTimer (.clearToSend index)).host.armed, t.event = .clearToSend index ∧
      t.delay = delay ∧ r.host.granted < t.handle ∧
      (r.onTimer (.clearToSend index)).timer? index = some t.handle := by
  obtain ⟨s, heq, hsb, hs⟩ := onTimer_clearToSend_cases r index
  rw [heq] at hunits ⊢
  have hpaced : s.dial.Paced index delay := by
    rcases hs with hs | hs <;> rw [hs] <;> exact ⟨h.grants, h.pacing⟩
  have hnone : s.dial.timer? (.clearToSend index) = none := by
    rcases hs with hs | hs <;> rw [hs] <;> exact Dial.timer?_remember_self ..
  have hgranted : s.host.granted = r.host.granted := by
    rcases hs with hs | hs <;> exact (congrArg Dial.granted hs :)
  rcases dial_kick_of_paced (hsb hb) hpaced hnone with ⟨hsame, hempty⟩ | hset
  · rw [hsame] at hunits
    exact absurd hempty hunits
  · have harmed : (s.kick index).host.armed = _ := (congrArg Dial.armed hset :)
    have htimer : (s.kick index).timer? index = _ :=
      (congrFun (congrArg Dial.timer? hset) (.clearToSend index) :)
    refine ⟨⟨s.host.granted + 1, delay, .clearToSend index⟩, ?_, rfl, rfl, ?_, ?_⟩
    · rw [harmed]
      exact List.mem_append_right _ (List.mem_singleton_self _)
    · rw [hgranted]
      exact Nat.lt_succ_self _
    · exact htimer.trans (Dial.timer?_remember_self ..)

end Relay

/-! ## Runs on a clock -/

/-- A relay in the course of a run, and what was noted about one of its interfaces. -/
structure Watch where
  relay : Relay
  /-- When the timer with a handle was set. -/
  setAt : Nat → Instant
  /-- When units went out over the interface. -/
  times : List Instant

/-- The watch once the relay is in the next state. What is new has happened just now. -/
def Watch.next (w : Watch) (index : Nat) (s : Relay) : Watch where
  relay := s
  setAt handle := if handle ≤ w.relay.host.granted then w.setAt handle else w.relay.now
  times := w.times ++ List.replicate (s.sentOver index - w.relay.sentOver index) w.relay.now

/-- A run from this state on in which the interface is paced all along. The clock of the host does not
    go back, and no timer goes off before its time. -/
inductive Timely (index delay : Nat) (r : Relay) : Watch → Prop where
  | start (setAt : Nat → Instant) : Timely index delay r ⟨r, setAt, []⟩
  | perform {w : Watch} (h : Timely index delay r w) {c : Call} (hc : c.isExpiry = false)
      (hclock : w.relay.now.micros ≤ (w.relay.perform c).now.micros)
      (hpaced : (w.relay.perform c).pacing? index = some delay) :
      Timely index delay r (w.next index (w.relay.perform c))
  | fire {w : Watch} (h : Timely index delay r w) {t : ArmedTimer} (ht : t ∈ w.relay.host.armed)
      (hdue : (w.setAt t.handle).micros + t.delay ≤ w.relay.now.micros)
      (hclock : w.relay.now.micros ≤ (w.relay.fire t).now.micros)
      (hpaced : (w.relay.fire t).pacing? index = some delay) :
      Timely index delay r (w.next index (w.relay.fire t))

namespace Watch

variable {w : Watch} {index delay : Nat} {s : Relay}

/-- The units went out far enough apart, and the timer for the next is not due too early. -/
structure Keeps (w : Watch) (index delay : Nat) : Prop where
  driven : w.relay.Driven
  paced : w.relay.dial.Paced index delay
  past : ∀ last ∈ w.times, last.micros ≤ w.relay.now.micros
  due : ∀ last ∈ w.times, ∀ t ∈ w.relay.host.armed, t.event = .clearToSend index →
    last.micros + delay ≤ (w.setAt t.handle).micros + t.delay
  apart : w.times.Pairwise fun a b => a.micros + delay ≤ b.micros

theorem setAt_next_old {t : ArmedTimer} (hdriven : w.relay.Driven) (ht : t ∈ w.relay.host.armed) :
    (w.next index s).setAt t.handle = w.setAt t.handle :=
  if_pos (hdriven.inStep.bounded t ht)

theorem setAt_next_new {t : ArmedTimer} (h : w.relay.host.granted < t.handle) :
    (w.next index s).setAt t.handle = w.relay.now := if_neg (Nat.not_le_of_lt h)

theorem times_next {n : Nat} (h : Dial.Passes index delay n w.relay.dial s.dial) :
    (w.next index s).times = w.times ++ List.replicate n w.relay.now := by
  have hsent : s.sentOver index - w.relay.sentOver index = n := by
    have hgone : s.sentOver index = w.relay.sentOver index + n := h.gone
    omega
  rw [next, hsent]

/-- A step with which nothing goes out keeps the units apart. -/
theorem Keeps.quiet (h : w.Keeps index delay) (hdriven : s.Driven)
    (hpaced : s.dial.Paced index delay) (hclock : w.relay.now.micros ≤ s.now.micros)
    (hs : Dial.Passes index delay 0 w.relay.dial s.dial) : (w.next index s).Keeps index delay := by
  have htimes : (w.next index s).times = w.times := (times_next hs).trans (List.append_nil _)
  refine ⟨hdriven, hpaced, ?_, ?_, ?_⟩ <;> rw [htimes]
  · exact fun last hlast => (h.past last hlast).trans hclock
  · intro last hlast t ht hevent
    rcases hs.armed t ht hevent with hold | ⟨hnew, hdelay⟩
    · rw [setAt_next_old h.driven hold]
      exact h.due last hlast t hold hevent
    · rw [setAt_next_new hnew, hdelay]
      exact Nat.add_le_add_right (h.past last hlast) delay
  · exact h.apart

/-- A unit may go out once the time is over, if the timers for the next are new. -/
theorem Keeps.sends (h : w.Keeps index delay) (hdriven : s.Driven)
    (hpaced : s.dial.Paced index delay) (hclock : w.relay.now.micros ≤ s.now.micros)
    (hs : Dial.Passes index delay 1 w.relay.dial s.dial)
    (hover : ∀ last ∈ w.times, last.micros + delay ≤ w.relay.now.micros)
    (hnew : ∀ t ∈ s.host.armed, t.event = .clearToSend index →
      w.relay.host.granted < t.handle ∧ t.delay = delay) : (w.next index s).Keeps index delay := by
  have htimes : (w.next index s).times = w.times ++ [w.relay.now] := times_next hs
  have hpast : ∀ last ∈ w.times ++ [w.relay.now], last.micros ≤ w.relay.now.micros := by
    intro last hlast
    rcases List.mem_append.1 hlast with hold | hlast
    · exact h.past last hold
    · rw [List.mem_singleton.1 hlast]
  refine ⟨hdriven, hpaced, ?_, ?_, ?_⟩ <;> rw [htimes]
  · exact fun last hlast => (hpast last hlast).trans hclock
  · intro last hlast t ht hevent
    obtain ⟨hlater, hdelay⟩ := hnew t ht hevent
    rw [setAt_next_new hlater, hdelay]
    exact Nat.add_le_add_right (hpast last hlast) delay
  · refine List.pairwise_append.2 ⟨h.apart, List.pairwise_singleton _ _, fun last hlast b hb => ?_⟩
    rw [List.mem_singleton.1 hb]
    exact hover last hlast

end Watch

namespace Relay

variable {r s : Relay} {index delay : Nat}

theorem keeps_fire {w : Watch} (h : w.Keeps index delay) {t : ArmedTimer}
    (ht : t ∈ w.relay.host.armed)
    (hdue : (w.setAt t.handle).micros + t.delay ≤ w.relay.now.micros)
    (hclock : w.relay.now.micros ≤ (w.relay.fire t).now.micros)
    (hpaced : (w.relay.fire t).pacing? index = some delay) :
    (w.next index (w.relay.fire t)).Keeps index delay := by
  have hdriven := h.driven.fire ht
  have hgone := passes_disarm w.relay t.handle index delay
  have hdisarmed : (w.relay.disarm t.handle).dial.Paced index delay := ⟨h.paced.grants, h.paced.pacing⟩
  by_cases hevent : t.event = .clearToSend index
  · have heq : w.relay.fire t = (w.relay.disarm t.handle).onTimer (.clearToSend index) := by
      rw [fire, hevent]
    -- the interface had one timer only, and it is gone
    have hnone : ∀ u ∈ (w.relay.disarm t.handle).host.armed, u.event ≠ .clearToSend index := by
      intro u hu hsame
      obtain ⟨hold, hother⟩ := List.mem_filter.1 hu
      rw [h.driven.inStep.eq_of_event hold ht (hsame.trans hevent.symm)] at hother
      exact bne_iff_ne.1 hother rfl
    obtain ⟨n, hsent, hn⟩ := passes_clearToSend hdisarmed index
    rw [if_pos rfl] at hn
    rw [← heq] at hsent
    have hs := hgone.trans hsent
    rw [Nat.zero_add] at hs
    have hstill : (w.relay.fire t).dial.Paced index delay := ⟨hs.grants ▸ h.paced.grants, hpaced⟩
    rcases Nat.le_one_iff_eq_zero_or_eq_one.1 hn with rfl | rfl
    · exact h.quiet hdriven hstill hclock hs
    · refine h.sends hdriven hstill hclock hs
        (fun last hlast => (h.due last hlast t ht hevent).trans hdue) fun u hu hsame => ?_
      exact (hsent.armed u hu hsame).resolve_left fun hold => hnone u hold hsame
  · have hs := hgone.quietly (passes_onTimer hdisarmed hevent)
    exact h.quiet hdriven ⟨hs.grants ▸ h.paced.grants, hpaced⟩ hclock hs

theorem keeps_of_timely (hdriven : r.Driven) (hpaced : r.dial.Paced index delay) {w : Watch}
    (h : Timely index delay r w) : w.Keeps index delay := by
  induction h with
  | start setAt => exact ⟨hdriven, hpaced, nofun, nofun, .nil⟩
  | @perform w _ c hc hclock hstill ih =>
    have hs : Dial.Passes index delay 0 w.relay.dial (w.relay.perform c).dial := by
      refine passes_perform ih.paced ?_
      rintro rfl
      cases hc
    exact ih.quiet (ih.driven.perform hc) ⟨hs.grants ▸ ih.paced.grants, hstill⟩ hclock hs
  | fire _ ht hdue hclock hstill ih => exact keeps_fire ih ht hdue hclock hstill

/-- Over a paced interface nothing goes out but when its timer goes off, then one unit at most, and if
    units are left the next timer is armed. So on a host that lets no timer go off early the units are
    apart by the pacing, whatever else is done in between. -/
theorem pacing_kept (h : Reachable r) (hgrants : ∀ n, r.host.grants n = true)
    (hpaced : r.pacing? index = some delay) :
    (∀ c, c ≠ .onTimer (.clearToSend index) → (r.perform c).sentOver index = r.sentOver index) ∧
    (∀ s, r.perform (.onTimer (.clearToSend index)) = s →
      s.sentOver index ≤ r.sentOver index + 1 ∧
      (s.units index ≠ [] → ∃ t ∈ s.host.armed, t.event = .clearToSend index ∧ t.delay = delay ∧
        r.host.granted < t.handle ∧ s.timer? index = some t.handle)) ∧
    (r.Driven → ∀ w, Timely index delay r w →
      w.times.Pairwise fun a b => a.micros + delay ≤ b.micros) := by
  have hdial : r.dial.Paced index delay := ⟨hgrants, hpaced⟩
  refine ⟨fun c hc => (passes_perform hdial hc).gone, ?_,
    fun hdriven w hw => (keeps_of_timely hdriven hdial hw).apart⟩
  rintro s rfl
  refine ⟨?_, rearmed_of_units h.balanced hdial⟩
  obtain ⟨n, hs, hn⟩ := passes_clearToSend hdial index
  rw [if_pos rfl] at hn
  exact hs.gone.trans_le (Nat.add_le_add_left hn _)

/-- Two interests wait at a paced interface of a relay whose host grants every timer. -/
def backlogged : Relay := (Relay.fresh (Host.fresh ⟨0⟩ (fun _ => none) fun _ => true)).performAll busy

/-- The timer goes off half a millisecond late for the first interest and in time for the second. They
    go out when it does, a millisecond apart. -/
theorem backlogged_apart : ∃ w, Timely 0 1000 backlogged w ∧ w.times = [⟨1500⟩, ⟨2500⟩] ∧
    (w.times.Pairwise fun a b => a.micros + 1000 ≤ b.micros) ∧
    (backlogged.perform (.onTimer (.clearToSend 0))).sentOver 0 ≤ backlogged.sentOver 0 + 1 ∧
    (backlogged.perform .stop).sentOver 0 = backlogged.sentOver 0 := by
  have hdriven : backlogged.Driven := .performAll (.new (.fresh _ _ _)) (by decide)
  have hgrants : ∀ n, backlogged.host.grants n = true := fun _ => by with_unfolding_all rfl
  have hpaced : backlogged.pacing? 0 = some 1000 := by decide +kernel
  have hstart : Timely 0 1000 backlogged ⟨backlogged, fun _ => ⟨0⟩, []⟩ := .start _
  have hlate := hstart.perform (c := .clock ⟨1500⟩) rfl (by decide +kernel) (by decide +kernel)
  have hfirst := hlate.fire (t := ⟨2, 1000, .clearToSend 0⟩) (by decide +kernel) (by decide +kernel)
    (by decide +kernel) (by decide +kernel)
  have hover := hfirst.perform (c := .clock ⟨2500⟩) rfl (by decide +kernel) (by decide +kernel)
  have hsecond := hover.fire (t := ⟨3, 1000, .clearToSend 0⟩) (by decide +kernel)
    (by decide +kernel) (by decide +kernel) (by decide +kernel)
  obtain ⟨hquiet, hone, hapart⟩ := pacing_kept hdriven.reachable hgrants hpaced
  exact ⟨_, hsecond, by decide +kernel, hapart hdriven _ hsecond, (hone _ rfl).1, hquiet .stop nofun⟩

end Relay

end NameRelay
