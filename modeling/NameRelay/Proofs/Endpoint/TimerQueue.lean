-- SUMMARY: A timer queue answers like the alarms that are set.
import Mathlib.Data.List.Nodup
import Mathlib.Data.List.TakeWhile
import NameRelay.Proofs.Endpoint.Alarms

/-!
# Timer queues and alarms

A timer queue keeps deadlines of timers that were cancelled long ago and drops them when they come to
the front. Its answers show nothing of that: they are those of the alarms that are set. What ties the
two together is that every alarm has its deadline in the queue, and that no two deadlines have the
same handle (`Keeps`).
-/

namespace NameRelay

-- ---------------------------------------------------------------------------
-- Deadlines
-- ---------------------------------------------------------------------------

namespace Deadline

theorem before_iff (a b : Deadline) : a.before b ↔
    a.time.micros < b.time.micros ∨ a.time.micros = b.time.micros ∧ a.handle < b.handle := by
  obtain ⟨⟨t⟩, n⟩ := a
  obtain ⟨⟨u⟩, m⟩ := b
  simp [before]

theorem before_trans {a b c : Deadline} (hab : a.before b) (hbc : b.before c) : a.before c := by
  rw [before_iff] at *
  omega

theorem before_asymm {a b : Deadline} (hab : a.before b) (hba : b.before a) : False := by
  rw [before_iff] at *
  omega

theorem before_of_not_before {a b : Deadline} (h : ¬ a.before b) (hne : a.handle ≠ b.handle) :
    b.before a := by
  rw [before_iff] at *
  omega

end Deadline

namespace TimerQueue

theorem place_perm (d : Deadline) (l : List Deadline) : (place d l).Perm (d :: l) := by
  induction l with
  | nil => exact .refl _
  | cons e rest ih =>
    rw [place]
    split
    · exact .refl _
    · exact (ih.cons e).trans (.swap d e rest)

theorem place_ordered {d : Deadline} {l : List Deadline} (h : l.Pairwise fun a b => a.before b)
    (hnew : ∀ e ∈ l, d.handle ≠ e.handle) : (place d l).Pairwise fun a b => a.before b := by
  induction l with
  | nil => exact List.pairwise_singleton _ _
  | cons e rest ih =>
    obtain ⟨hfront, hrest⟩ := List.pairwise_cons.1 h
    rw [place]
    split
    case isTrue hbefore =>
      refine List.pairwise_cons.2 ⟨fun x hx => ?_, h⟩
      rcases List.mem_cons.1 hx with rfl | hx
      · exact hbefore
      · exact Deadline.before_trans hbefore (hfront x hx)
    case isFalse hbefore =>
      refine List.pairwise_cons.2
        ⟨fun x hx => ?_, ih hrest fun x hx => hnew x (List.mem_cons_of_mem _ hx)⟩
      rcases List.mem_cons.1 ((place_perm d rest).mem_iff.1 hx) with rfl | hx
      · exact Deadline.before_of_not_before hbefore (hnew e List.mem_cons_self)
      · exact hfront x hx

/-- Those that have come stand in front. -/
theorem takeWhile_isDue {l : List Deadline} (h : l.Pairwise fun a b => a.before b) (now : Instant) :
    l.takeWhile (isDue now) = l.filter (isDue now) := by
  induction l with
  | nil => rfl
  | cons d rest ih =>
    obtain ⟨hfront, hrest⟩ := List.pairwise_cons.1 h
    rw [List.takeWhile_cons, List.filter_cons]
    split
    · rw [ih hrest]
    case isFalse hlate =>
      refine (List.filter_eq_nil_iff.2 fun e he hdue => hlate ?_).symm
      have hbefore := (Deadline.before_iff d e).1 (hfront e he)
      simp only [isDue, decide_eq_true_eq] at hdue ⊢
      omega

theorem event?_disarm_of_ne (q : TimerQueue) {handle other : Nat} (h : other ≠ handle) :
    (q.disarm handle).event? other = q.event? other := by
  rw [event?, event?, disarm, List.find?_filter]
  congr 2
  funext timer
  by_cases hother : timer.1 = other
  · simp [hother, h]
  · simp [hother]

/-- What is fired when no deadline is there twice. -/
theorem fire_eq (q : TimerQueue) {l : List Deadline} (h : (l.map (·.handle)).Nodup) :
    q.fire l = (l.filterMap fun d => q.event? d.handle,
      { q with armed := q.armed.filter fun timer => !(l.map (·.handle)).contains timer.1 }) := by
  induction l generalizing q with
  | nil => simp [fire]
  | cons d rest ih =>
    obtain ⟨hd, hrest⟩ := List.nodup_cons.1 h
    have hevents : (rest.filterMap fun e => (q.disarm d.handle).event? e.handle)
        = rest.filterMap fun e => q.event? e.handle :=
      List.filterMap_congr fun e he =>
        q.event?_disarm_of_ne fun heq => hd (List.mem_map.2 ⟨e, he, heq⟩)
    rw [fire, ih (q.disarm d.handle) hrest, hevents]
    refine Prod.ext ?_ ?_
    · cases hevent : q.event? d.handle <;> simp [hevent]
    · simp only [disarm, List.filter_filter, List.map_cons, List.contains_cons, Bool.not_or]
      congr 2
      funext timer
      exact Bool.and_comm _ _

end TimerQueue

-- ---------------------------------------------------------------------------
-- A queue and its alarms
-- ---------------------------------------------------------------------------

open TimerQueue (Call Answer)

namespace Alarms

variable {s : Alarms} {q : TimerQueue}

/-- The alarm with a handle, if it is set. -/
def alarm? (s : Alarms) (handle : Nat) : Option Alarm := s.armed.find? (·.handle == handle)

/-- The alarms that are set for some deadlines. -/
def setFor (s : Alarms) (l : List Deadline) : List Alarm := l.filterMap fun d => s.alarm? d.handle

theorem Numbered.alarm?_handle (h : s.Numbered) {a : Alarm} (ha : a ∈ s.armed) :
    s.alarm? a.handle = some a := by
  rw [alarm?]
  cases hfind : s.armed.find? (·.handle == a.handle) with
  | none => exact absurd (beq_self_eq_true _) (List.find?_eq_none.1 hfind a ha)
  | some b =>
    have hsame : b.handle = a.handle := by simpa using List.find?_some hfind
    rw [List.inj_on_of_nodup_map h.nodup_handles (List.mem_of_find?_eq_some hfind) ha hsame]

theorem mem_of_alarm? {handle : Nat} {a : Alarm} (h : s.alarm? handle = some a) :
    a ∈ s.armed ∧ a.handle = handle :=
  ⟨List.mem_of_find?_eq_some h, by simpa using List.find?_some h⟩

/-- Sorting by time keeps those of one time in the order in which they were set. -/
theorem sorted_mergeSort {l : List Alarm} (h : l.Pairwise fun a b => a.handle < b.handle) :
    (l.mergeSort Alarm.notAfter).Pairwise fun a b => a.deadline.before b.deadline := by
  have htrans : ∀ a b c : Alarm, a.notAfter b → b.notAfter c → a.notAfter c := by
    intro a b c hab hbc
    simp only [Alarm.notAfter, decide_eq_true_eq] at *
    omega
  have htotal : ∀ a b : Alarm, (a.notAfter b || b.notAfter a) = true := by
    intro a b
    simp only [Alarm.notAfter, Bool.or_eq_true, decide_eq_true_eq]
    omega
  induction l with
  | nil =>
    rw [List.mergeSort_nil]
    exact .nil
  | cons a rest ih =>
    obtain ⟨hfirst, hrest⟩ := List.pairwise_cons.1 h
    -- the sorted rest is cut where `a` goes: behind those that go off earlier, before all others
    obtain ⟨front, back, hwhole, hsplit, hfront⟩ := List.mergeSort_cons htrans htotal a rest
    have hinner := ih hrest
    have htimes := List.pairwise_mergeSort htrans htotal (a :: rest)
    rw [hwhole] at htimes ⊢
    rw [hsplit] at hinner
    obtain ⟨hf, hb, hcross⟩ := List.pairwise_append.1 hinner
    refine List.pairwise_append.2 ⟨hf, List.pairwise_cons.2 ⟨fun b hmem => ?_, hb⟩, ?_⟩
    · have hlater := List.rel_of_pairwise_cons (List.pairwise_append.1 htimes).2.1 hmem
      have hin : b ∈ rest :=
        (List.mergeSort_perm rest Alarm.notAfter).mem_iff.1
          (hsplit ▸ List.mem_append_right _ hmem)
      have hhandle := hfirst b hin
      simp only [Alarm.notAfter, decide_eq_true_eq] at hlater
      rw [Deadline.before_iff]
      simp only [Alarm.deadline]
      omega
    · intro b hmem c hc
      rcases List.mem_cons.1 hc with rfl | hc
      · have hearlier := hfront b hmem
        simp only [Alarm.notAfter, Bool.not_eq_true', decide_eq_false_iff_not] at hearlier
        rw [Deadline.before_iff]
        simp only [Alarm.deadline]
        omega
      · exact hcross b hmem c hc

/-- The queue keeps the alarms: each has its deadline in the queue, the deadlines are in order, and
    every handle that was given out has at most one. -/
structure Keeps (q : TimerQueue) (s : Alarms) : Prop where
  numbered : s.Numbered
  lastHandle : q.lastHandle = s.issued
  armed : q.armed = s.armed.map fun a => (a.handle, a.event)
  ordered : q.deadlines.Pairwise fun d e => d.before e
  distinct : (q.deadlines.map (·.handle)).Nodup
  known : ∀ d ∈ q.deadlines, d.handle ≤ s.issued
  listed : ∀ a ∈ s.armed, a.deadline ∈ q.deadlines

namespace Keeps

theorem empty : Keeps .empty none where
  numbered := numbered_none
  lastHandle := rfl
  armed := rfl
  ordered := .nil
  distinct := .nil
  known d hd := by cases hd
  listed a ha := by cases ha

theorem event?_eq (h : Keeps q s) (handle : Nat) :
    q.event? handle = (s.alarm? handle).map (·.event) := by
  rw [TimerQueue.event?, h.armed, List.find?_map, Option.map_map, alarm?]
  rfl

/-- An alarm has the only deadline with its handle. -/
theorem deadline_eq (h : Keeps q s) {d : Deadline} {a : Alarm} (hd : d ∈ q.deadlines)
    (ha : s.alarm? d.handle = some a) : a.deadline = d := by
  obtain ⟨hmem, hsame⟩ := mem_of_alarm? ha
  exact List.inj_on_of_nodup_map h.distinct (h.listed a hmem) hd hsame

/-- Every alarm that is set is found at its deadline. -/
theorem setFor_deadlines (h : Keeps q s) : (s.setFor q.deadlines).Perm s.armed := by
  have hnodup : (s.setFor q.deadlines).Nodup := by
    refine List.pairwise_filterMap.2 ((List.pairwise_map.1 h.distinct).imp ?_)
    rintro d e hne a ha b hb rfl
    exact hne ((mem_of_alarm? ha).2.symm.trans (mem_of_alarm? hb).2)
  -- neither side has an alarm twice, so it is enough that they have the same
  refine (List.perm_ext_iff_of_nodup hnodup (.of_map _ h.numbered.nodup_handles)).2 fun a => ?_
  rw [setFor, List.mem_filterMap]
  constructor
  · rintro ⟨d, -, ha⟩
    exact (mem_of_alarm? ha).1
  · intro ha
    exact ⟨a.deadline, h.listed a ha, h.numbered.alarm?_handle ha⟩

theorem setFor_ordered (h : Keeps q s) :
    (s.setFor q.deadlines).Pairwise fun a b => a.deadline.before b.deadline := by
  refine List.pairwise_filterMap.2 (h.ordered.imp_of_mem ?_)
  intro d e hd he hbefore a ha b hb
  rw [h.deadline_eq hd ha, h.deadline_eq he hb]
  exact hbefore

/-- The alarms for the deadlines that have come are those that are due. -/
theorem setFor_isDue (h : Keeps q s) (now : Instant) :
    s.setFor (q.deadlines.filter (TimerQueue.isDue now))
      = (s.setFor q.deadlines).filter (·.isDue now) := by
  rw [setFor, setFor, List.filterMap_filter, List.filter_filterMap]
  refine List.filterMap_congr fun d hd => ?_
  cases ha : s.alarm? d.handle with
  | none => simp
  | some a =>
    have hdue : a.isDue now = TimerQueue.isDue now d := by rw [← h.deadline_eq hd ha]; rfl
    cases htime : TimerQueue.isDue now d <;> simp [Option.filter, hdue, htime]

/-- Alarms are taken back or go off, and their deadlines stay. -/
theorem filter (h : Keeps q s) (p : Alarm → Bool) (gone : Nat → Bool)
    (hgone : ∀ a ∈ s.armed, p a = !gone a.handle) :
    Keeps { q with armed := q.armed.filter fun timer => !gone timer.1 }
      { s with armed := s.armed.filter p } where
  numbered := h.numbered.of_sublist List.filter_sublist rfl
  lastHandle := h.lastHandle
  armed := by
    rw [List.filter_congr hgone, h.armed, List.filter_map]
    rfl
  ordered := h.ordered
  distinct := h.distinct
  known := h.known
  listed a ha := h.listed a (List.mem_of_mem_filter ha)

/-- Deadlines without an alarm are dropped. -/
theorem dropWhile (h : Keeps q s) (p : Deadline → Bool) (hp : ∀ a ∈ s.armed, ¬ p a.deadline) :
    Keeps { q with deadlines := q.deadlines.dropWhile p } s where
  numbered := h.numbered
  lastHandle := h.lastHandle
  armed := h.armed
  ordered := h.ordered.sublist (List.dropWhile_sublist p)
  distinct := h.distinct.sublist ((List.dropWhile_sublist p).map _)
  known d hd := h.known d ((List.dropWhile_sublist p).subset hd)
  listed a ha := by
    have hmem := h.listed a ha
    rw [← List.takeWhile_append_dropWhile (p := p) (l := q.deadlines)] at hmem
    rcases List.mem_append.1 hmem with hfront | hback
    · exact absurd (List.mem_takeWhile_imp hfront) (hp a ha)
    · exact hback

-- ---------------------------------------------------------------------------
-- One call
-- ---------------------------------------------------------------------------

theorem set (h : Keeps q s) (now : Instant) (delay : Nat) (event : TimerEvent) :
    (q.set now delay event).1 = s.issued + 1 ∧
      Keeps (q.set now delay event).2 (s.perform (.set now delay event)).2 := by
  have hfresh : ∀ d ∈ q.deadlines, q.lastHandle + 1 ≠ d.handle := fun d hd =>
    Nat.ne_of_gt (h.lastHandle ▸ Nat.lt_succ_of_le (h.known d hd))
  have hperm := TimerQueue.place_perm ⟨now.adding delay, q.lastHandle + 1⟩ q.deadlines
  refine ⟨congrArg (· + 1) h.lastHandle, ?_⟩
  constructor
  case numbered => exact (passed_perform h.numbered _).numbered
  case lastHandle => exact congrArg (· + 1) h.lastHandle
  case armed =>
    simp only [TimerQueue.set, perform, h.armed, h.lastHandle, List.map_append, List.map_cons,
      List.map_nil]
  case ordered => exact TimerQueue.place_ordered h.ordered hfresh
  case distinct =>
    refine (hperm.map _).nodup_iff.2 (List.nodup_cons.2 ⟨fun hmem => ?_, h.distinct⟩)
    obtain ⟨d, hd, hsame⟩ := List.mem_map.1 hmem
    exact hfresh d hd hsame.symm
  case known =>
    intro d hd
    rcases List.mem_cons.1 (hperm.mem_iff.1 hd) with rfl | hd
    · exact Nat.le_of_eq (congrArg (· + 1) h.lastHandle)
    · exact Nat.le_succ_of_le (h.known d hd)
  case listed =>
    intro a ha
    refine hperm.mem_iff.2 ?_
    rcases List.mem_append.1 (show a ∈ s.armed ++ [_] from ha) with hold | hnew
    · exact List.mem_cons_of_mem _ (h.listed a hold)
    · rw [List.mem_singleton.1 hnew, h.lastHandle]
      exact List.mem_cons_self

theorem cancel (h : Keeps q s) (handle : Nat) :
    Keeps (q.cancel handle) (s.perform (.cancel handle)).2 :=
  h.filter (·.handle != handle) (· == handle) fun _ _ => rfl

/-- Of the deadlines that are left, the first is that of an alarm. -/
theorem alarm_of_waiting (h : Keeps q s) {d : Deadline} {rest : List Deadline}
    (hwaiting : q.next?.2.deadlines = d :: rest) : ∃ a ∈ s.armed, a.deadline = d := by
  have hd : d ∈ q.deadlines := (List.dropWhile_sublist _).subset (hwaiting ▸ List.mem_cons_self)
  have hhead := List.head?_dropWhile_not (fun d => (q.event? d.handle).isNone) q.deadlines
  rw [show q.deadlines.dropWhile _ = d :: rest from hwaiting] at hhead
  cases ha : s.alarm? d.handle with
  | none => simp [h.event?_eq, ha] at hhead
  | some a => exact ⟨a, (mem_of_alarm? ha).1, h.deadline_eq hd ha⟩

theorem next? (h : Keeps q s) :
    q.next?.1 = (s.armed.map (·.time.micros)).min?.map Instant.mk ∧ Keeps q.next?.2 s := by
  have hkeeps := h.dropWhile (fun d => (q.event? d.handle).isNone) fun a ha => by
    simp [h.event?_eq, Alarm.deadline, h.numbered.alarm?_handle ha]
  refine ⟨?_, hkeeps⟩
  change q.next?.2.deadlines.head?.map (·.time) = _
  have hlisted : ∀ a ∈ s.armed, a.deadline ∈ q.next?.2.deadlines := hkeeps.listed
  have hordered : q.next?.2.deadlines.Pairwise fun d e => d.before e := hkeeps.ordered
  cases hwaiting : q.next?.2.deadlines with
  | nil =>
    have harmed : s.armed = [] := List.eq_nil_iff_forall_not_mem.2 fun a ha => by
      have hmem := hlisted a ha
      rw [hwaiting] at hmem
      cases hmem
    rw [harmed]
    rfl
  | cons d rest =>
    rw [hwaiting] at hlisted hordered
    obtain ⟨a, ha, rfl⟩ := h.alarm_of_waiting hwaiting
    have hfirst : (s.armed.map (·.time.micros)).min? = some a.time.micros := by
      refine List.min?_eq_some_iff.2 ⟨List.mem_map_of_mem ha, fun time htime => ?_⟩
      obtain ⟨b, hb, rfl⟩ := List.mem_map.1 htime
      rcases List.mem_cons.1 (hlisted b hb) with heq | hlater
      · exact Nat.le_of_eq (congrArg (·.time.micros) heq.symm)
      · have hbefore := (Deadline.before_iff _ _).1 (List.rel_of_pairwise_cons hordered hlater)
        simp only [Alarm.deadline] at hbefore
        omega
    rw [hfirst]
    rfl

/-- The alarms of the deadlines that have come are those that are due, in the order in which they go
    off: both are the same alarms in the order of their deadlines. -/
theorem setFor_isDue_eq (h : Keeps q s) (now : Instant) :
    s.setFor (q.deadlines.filter (TimerQueue.isDue now))
      = (s.armed.filter (·.isDue now)).mergeSort Alarm.notAfter := by
  rw [h.setFor_isDue]
  refine List.Perm.eq_of_pairwise
    (fun a b _ _ hab hba => (Deadline.before_asymm hab hba).elim)
    (h.setFor_ordered.filter _) (sorted_mergeSort (h.numbered.increasing.filter _)) ?_
  exact (h.setFor_deadlines.filter _).trans (List.mergeSort_perm _ _).symm

theorem isDue_iff (h : Keeps q s) (now : Instant) {a : Alarm} (ha : a ∈ s.armed) :
    a.isDue now = true ↔
      a.handle ∈ (q.deadlines.filter (TimerQueue.isDue now)).map (·.handle) := by
  rw [List.mem_map]
  constructor
  · intro hdue
    exact ⟨a.deadline, List.mem_filter.2 ⟨h.listed a ha, hdue⟩, rfl⟩
  · rintro ⟨d, hd, hsame⟩
    obtain ⟨hmem, hdue⟩ := List.mem_filter.1 hd
    rw [← h.deadline_eq hmem (hsame ▸ h.numbered.alarm?_handle ha)] at hdue
    exact hdue

theorem takeExpired (h : Keeps q s) (now : Instant) :
    (q.takeExpired now).1 = ((s.armed.filter (·.isDue now)).mergeSort Alarm.notAfter).map (·.event) ∧
      Keeps (q.takeExpired now).2 (s.perform (.takeExpired now)).2 := by
  have hdistinct : ((q.deadlines.filter (TimerQueue.isDue now)).map (·.handle)).Nodup :=
    h.distinct.sublist (List.filter_sublist.map _)
  rw [TimerQueue.takeExpired, TimerQueue.takeWhile_isDue h.ordered,
    TimerQueue.fire_eq _ hdistinct]
  refine ⟨?_, ?_⟩
  · rw [← h.setFor_isDue_eq, setFor, List.map_filterMap]
    exact List.filterMap_congr fun d _ => h.event?_eq d.handle
  · have hgone : ∀ a ∈ s.armed, (!a.isDue now)
        = !((q.deadlines.filter (TimerQueue.isDue now)).map (·.handle)).contains a.handle := by
      intro a ha
      rw [Bool.eq_iff_iff.2 ((h.isDue_iff now ha).trans List.contains_iff_mem.symm)]
    refine (h.filter (!·.isDue now) _ hgone).dropWhile (TimerQueue.isDue now) fun a ha => ?_
    have hlate : a.isDue now = false := by simpa using (List.mem_filter.1 ha).2
    exact Bool.eq_false_iff.1 hlate

/-- The queue answers a call as its alarms do, and keeps them. -/
theorem perform (h : Keeps q s) (call : Call) :
    (q.perform call).1 = (s.perform call).1.map (·.event) ∧
      Keeps (q.perform call).2 (s.perform call).2 := by
  cases call with
  | set now delay event =>
    obtain ⟨hhandle, hkeeps⟩ := h.set now delay event
    exact ⟨congrArg Answer.issued hhandle, hkeeps⟩
  | cancel handle => exact ⟨rfl, h.cancel handle⟩
  | next =>
    obtain ⟨htime, hkeeps⟩ := h.next?
    exact ⟨congrArg Answer.next htime, hkeeps⟩
  | takeExpired now =>
    obtain ⟨hevents, hkeeps⟩ := h.takeExpired now
    exact ⟨congrArg Answer.expired hevents, hkeeps⟩

theorem performAll (h : Keeps q s) (calls : List Call) :
    (q.performAll calls).1 = (s.performAll calls).1.map (·.map (·.event)) ∧
      Keeps (q.performAll calls).2 (s.performAll calls).2 := by
  induction calls generalizing q s with
  | nil => exact ⟨rfl, h⟩
  | cons call rest ih =>
    obtain ⟨hanswer, hkeeps⟩ := h.perform call
    obtain ⟨hanswers, hkept⟩ := ih hkeeps
    exact ⟨congrArg₂ List.cons hanswer hanswers, hkept⟩

end Keeps

end Alarms

-- ---------------------------------------------------------------------------
-- Runs from the start
-- ---------------------------------------------------------------------------

namespace TimerQueue

open Alarms

/-- A queue answers any calls as the alarms that are set do, and no timer goes off twice. A timer that
    is taken back does not go off, and taking back one that does not wait for its time, among them
    those unknown and those gone off, changes no later answer. -/
theorem performAll_like_alarms (calls : List Call) :
    (empty.performAll calls).1 = (Alarms.none.performAll calls).1.map (·.map (·.event)) ∧
      ((allGoneOff (Alarms.none.performAll calls).1).map (·.handle)).Nodup ∧
      ∀ (handle : Nat) (after : List Call),
        (handle ≤ (Alarms.none.performAll calls).2.issued →
          ∀ a ∈ allGoneOff ((Alarms.none.performAll calls).2.performAll (.cancel handle :: after)).1,
            a.handle ≠ handle) ∧
        ((Alarms.none.performAll calls).2.issued < handle ∨
          handle ∈ (allGoneOff (Alarms.none.performAll calls).1).map (·.handle) →
            ¬ (Alarms.none.performAll calls).2.IsSet handle) ∧
        (¬ (Alarms.none.performAll calls).2.IsSet handle →
          (empty.performAll (calls ++ .cancel handle :: after)).1 =
            (empty.performAll calls).1 ++ .cancelled ::
              ((empty.performAll calls).2.performAll after).1) := by
  have hpassed := passed_performAll numbered_none calls
  obtain ⟨hanswers, hkeeps⟩ := Keeps.empty.performAll calls
  refine ⟨hanswers, ?_, fun handle after => ⟨fun hissued => ?_, hpassed.not_isSet, fun hnot => ?_⟩⟩
  · have hdistinct := hpassed.distinct
    rw [List.map_append, List.nodup_append] at hdistinct
    exact hdistinct.1
  · have hstep := passed_perform hpassed.numbered (.cancel handle)
    exact not_goneOff_of_not_isSet hstep.numbered (Nat.le_trans hissued hstep.issued)
      (not_isSet_cancel _ handle) after
  · obtain ⟨-, hcancelled⟩ := hkeeps.perform (.cancel handle)
    rw [cancel_of_not_isSet hnot] at hcancelled
    have hafter := (hcancelled.performAll after).1
    rw [performAll_append, performAll, (hkeeps.performAll after).1]
    exact congrArg (_ ++ .cancelled :: ·) hafter

/-- The earlier of two timers goes off, and the later one is taken back before it can. -/
theorem performAll_two_timers :
    (empty.performAll [.set ⟨0⟩ 5 .ageing, .set ⟨0⟩ 3 (.clearToSend 1), .takeExpired ⟨4⟩]).1 =
        [.issued 1, .issued 2, .expired [.clearToSend 1]] ∧
      (∀ a ∈ allGoneOff ((Alarms.none.performAll
          [.set ⟨0⟩ 5 .ageing, .set ⟨0⟩ 3 (.clearToSend 1), .takeExpired ⟨4⟩]).2.performAll
            [.cancel 1, .takeExpired ⟨9⟩]).1, a.handle ≠ 1) ∧
      (empty.performAll [.set ⟨0⟩ 5 .ageing, .set ⟨0⟩ 3 (.clearToSend 1), .takeExpired ⟨4⟩,
        .cancel 7, .takeExpired ⟨9⟩]).1 =
          [.issued 1, .issued 2, .expired [.clearToSend 1], .cancelled, .expired [.ageing]] := by
  have htimers := performAll_like_alarms
    [.set ⟨0⟩ 5 .ageing, .set ⟨0⟩ 3 (.clearToSend 1), .takeExpired ⟨4⟩]
  refine ⟨by decide, (htimers.2.2 1 [.takeExpired ⟨9⟩]).1 (by decide), ?_⟩
  have hunknown := (htimers.2.2 7 [.takeExpired ⟨9⟩]).2
  exact (hunknown.2 (hunknown.1 (.inl (by decide)))).trans (by decide)

end TimerQueue

end NameRelay
