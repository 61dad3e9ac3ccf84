-- SUMMARY: The alarms that are set, and what goes off along a run of calls.
import Mathlib.Data.List.Perm.Basic
import NameRelay.Endpoint.TimerQueue

/-!
# Alarms

`Alarms` is what those who use a timer queue see of it: the list of the timers that are set, in the
order in which they were set, with one plain rule for each call. `Passed` says what becomes of the
alarms along a run: none is doubled, and each was there before or has a new handle. That no timer goes
off twice, and none that was taken back, follows from it.
-/

namespace NameRelay

/-- A timer that was set, with all that is known of it. -/
structure Alarm where
  time : Instant
  handle : Nat
  event : TimerEvent
  deriving DecidableEq, Repr

namespace Alarm

/-- What a queue keeps of the alarm among its deadlines. -/
def deadline (a : Alarm) : Deadline := ⟨a.time, a.handle⟩

/-- Whether the time of the alarm has come. -/
def isDue (now : Instant) (a : Alarm) : Bool := a.time.micros ≤ now.micros

/-- Whether `a` goes off no later than `b`. -/
def notAfter (a b : Alarm) : Bool := a.time.micros ≤ b.time.micros

end Alarm

namespace TimerQueue

-- ---------------------------------------------------------------------------
-- Calls and answers
-- ---------------------------------------------------------------------------

/-- One call to a timer queue, with what the clock shows where that matters. -/
inductive Call where
  | set (now : Instant) (delay : Nat) (event : TimerEvent)
  | cancel (handle : Nat)
  | next
  | takeExpired (now : Instant)

/-- What is answered: the handle of a new timer, when the next timer goes off, or what has gone off. -/
inductive Answer (ε : Type) where
  | issued (handle : Nat)
  | cancelled
  | next (time : Option Instant)
  | expired (all : List ε)
  deriving DecidableEq, Repr

/-- The answer with something else told of what has gone off. -/
def Answer.map {ε φ : Type} (f : ε → φ) : Answer ε → Answer φ
  | issued handle => issued handle
  | cancelled => cancelled
  | next time => next time
  | expired all => expired (all.map f)

/-- The answer to a call, and the queue after it. -/
def perform (q : TimerQueue) : Call → Answer TimerEvent × TimerQueue
  | .set now delay event => (.issued (q.set now delay event).1, (q.set now delay event).2)
  | .cancel handle => (.cancelled, q.cancel handle)
  | .next => (.next q.next?.1, q.next?.2)
  | .takeExpired now => (.expired (q.takeExpired now).1, (q.takeExpired now).2)

/-- The answers to calls that are made one after the other, and the queue after them. -/
def performAll (q : TimerQueue) : List Call → List (Answer TimerEvent) × TimerQueue
  | [] => ([], q)
  | call :: rest =>
    let (answer, q) := q.perform call
    let (answers, q) := performAll q rest
    (answer :: answers, q)

theorem performAll_append (q : TimerQueue) (before after : List Call) :
    q.performAll (before ++ after) =
      ((q.performAll before).1 ++ ((q.performAll before).2.performAll after).1,
        ((q.performAll before).2.performAll after).2) := by
  induction before generalizing q with
  | nil => rfl
  | cons call before ih => simp only [List.cons_append, performAll, ih]

end TimerQueue

-- ---------------------------------------------------------------------------
-- Alarms
-- ---------------------------------------------------------------------------

open TimerQueue (Call Answer)

/-- The alarms that are set, the one that was set first in front, and how many were ever set. -/
structure Alarms where
  armed : List Alarm
  issued : Nat
  deriving DecidableEq, Repr

namespace Alarms

/-- No alarm was ever set. -/
def none : Alarms := ⟨[], 0⟩

/-- The rule for each call. Alarms that are due go off by their times, and those of one time in the
    order in which they were set: sorting keeps it. -/
def perform (s : Alarms) : Call → Answer Alarm × Alarms
  | .set now delay event =>
    (.issued (s.issued + 1), ⟨s.armed ++ [⟨now.adding delay, s.issued + 1, event⟩], s.issued + 1⟩)
  | .cancel handle => (.cancelled, { s with armed := s.armed.filter (·.handle != handle) })
  | .next => (.next ((s.armed.map (·.time.micros)).min?.map Instant.mk), s)
  | .takeExpired now =>
    (.expired ((s.armed.filter (·.isDue now)).mergeSort Alarm.notAfter),
      { s with armed := s.armed.filter (!·.isDue now) })

/-- The answers to calls that are made one after the other, and the alarms after them. -/
def performAll (s : Alarms) : List Call → List (Answer Alarm) × Alarms
  | [] => ([], s)
  | call :: rest =>
    let (answer, s) := s.perform call
    let (answers, s) := performAll s rest
    (answer :: answers, s)

/-- The alarms that have gone off with an answer. -/
def goneOff : Answer Alarm → List Alarm
  | .expired all => all
  | _ => []

/-- No two alarms have the same handle, and none has one that is still to be given out. -/
structure Numbered (s : Alarms) : Prop where
  increasing : s.armed.Pairwise fun a b => a.handle < b.handle
  issued : ∀ a ∈ s.armed, a.handle ≤ s.issued

variable {s t u : Alarms} {off more : List Alarm}

theorem numbered_none : none.Numbered := ⟨.nil, fun a ha => by cases ha⟩

theorem Numbered.nodup_handles (h : s.Numbered) : (s.armed.map (·.handle)).Nodup :=
  List.pairwise_map.2 (h.increasing.imp Nat.ne_of_lt)

theorem Numbered.of_sublist (h : s.Numbered) (hsub : t.armed.Sublist s.armed)
    (hissued : t.issued = s.issued) : t.Numbered where
  increasing := h.increasing.sublist hsub
  issued a ha := hissued ▸ h.issued a (hsub.subset ha)

/-- From `s` to `t` the alarms in `off` have gone off: no alarm is doubled, and each was set in `s` or
    has a new handle. -/
structure Passed (s : Alarms) (off : List Alarm) (t : Alarms) : Prop where
  numbered : t.Numbered
  issued : s.issued ≤ t.issued
  distinct : ((off ++ t.armed).map (·.handle)).Nodup
  within : ∀ a ∈ off ++ t.armed, a.handle ≤ t.issued
  origin : ∀ a ∈ off ++ t.armed, a ∈ s.armed ∨ s.issued < a.handle

/-- Alarms are left out or moved to those that go off. -/
theorem Passed.of_subperm (h : s.Numbered) (hsub : t.armed.Sublist s.armed)
    (hperm : (off ++ t.armed).Subperm s.armed) (hissued : t.issued = s.issued) : Passed s off t where
  numbered := h.of_sublist hsub hissued
  issued := Nat.le_of_eq hissued.symm
  distinct := by
    obtain ⟨l, hl, hsublist⟩ := hperm
    exact ((hl.map _).nodup_iff).1 (h.nodup_handles.sublist (hsublist.map _))
  within a ha := hissued ▸ h.issued a (hperm.subset ha)
  origin a ha := .inl (hperm.subset ha)

theorem Passed.trans (hst : Passed s off t) (htu : Passed t more u) : Passed s (off ++ more) u where
  numbered := htu.numbered
  issued := Nat.le_trans hst.issued htu.issued
  distinct := by
    rw [List.append_assoc, List.map_append, List.nodup_append]
    have hold := hst.distinct
    rw [List.map_append, List.nodup_append] at hold
    refine ⟨hold.1, htu.distinct, fun n hn m hm => ?_⟩
    obtain ⟨a, ha, rfl⟩ := List.mem_map.1 hn
    obtain ⟨b, hb, rfl⟩ := List.mem_map.1 hm
    -- what comes later was there all the time or has a later handle
    rcases htu.origin b hb with harmed | hnew
    · exact hold.2.2 _ hn _ (List.mem_map_of_mem harmed)
    · exact Nat.ne_of_lt (Nat.lt_of_le_of_lt (hst.within a (List.mem_append_left _ ha)) hnew)
  within a ha := by
    rw [List.append_assoc] at ha
    rcases List.mem_append.1 ha with hoff | hlater
    · exact Nat.le_trans (hst.within a (List.mem_append_left _ hoff)) htu.issued
    · exact htu.within a hlater
  origin a ha := by
    rw [List.append_assoc] at ha
    rcases List.mem_append.1 ha with hoff | hlater
    · exact hst.origin a (List.mem_append_left _ hoff)
    · rcases htu.origin a hlater with harmed | hnew
      · exact hst.origin a (List.mem_append_right _ harmed)
      · exact .inr (Nat.lt_of_le_of_lt hst.issued hnew)

theorem passed_perform (h : s.Numbered) (call : Call) :
    Passed s (goneOff (s.perform call).1) (s.perform call).2 := by
  cases call with
  | set now delay event =>
    have hnumbered : Numbered ⟨s.armed ++ [⟨now.adding delay, s.issued + 1, event⟩],
        s.issued + 1⟩ := by
      constructor
      · refine List.pairwise_append.2 ⟨h.increasing, List.pairwise_singleton _ _, fun a ha b hb => ?_⟩
        rw [List.mem_singleton.1 hb]
        exact Nat.lt_succ_of_le (h.issued a ha)
      · intro a ha
        rcases List.mem_append.1 ha with hold | hnew
        · exact Nat.le_succ_of_le (h.issued a hold)
        · exact Nat.le_of_eq (congrArg (·.handle) (List.mem_singleton.1 hnew))
    refine ⟨hnumbered, Nat.le_succ _, hnumbered.nodup_handles, hnumbered.issued, fun a ha => ?_⟩
    rcases List.mem_append.1 (show a ∈ s.armed ++ [_] from ha) with hold | hnew
    · exact .inl hold
    · exact .inr (by rw [List.mem_singleton.1 hnew]; exact Nat.lt_succ_self _)
  | cancel handle =>
    exact .of_subperm h List.filter_sublist List.filter_sublist.subperm rfl
  | next => exact .of_subperm h (List.Sublist.refl _) (List.Subperm.refl _) rfl
  | takeExpired now =>
    refine .of_subperm h List.filter_sublist ?_ rfl
    have hsorted := List.mergeSort_perm (s.armed.filter (·.isDue now)) Alarm.notAfter
    exact ((hsorted.append_right _).trans (List.filter_append_perm _ _)).subperm

/-- The alarms that have gone off along the way. -/
def allGoneOff (answers : List (Answer Alarm)) : List Alarm := answers.flatMap goneOff

theorem passed_performAll (h : s.Numbered) (calls : List Call) :
    Passed s (allGoneOff (s.performAll calls).1) (s.performAll calls).2 := by
  induction calls generalizing s with
  | nil => exact .of_subperm h (List.Sublist.refl _) (List.Subperm.refl _) rfl
  | cons call rest ih =>
    have hstep := passed_perform h call
    exact hstep.trans (ih hstep.numbered)

/-- Whether a timer waits for its time. -/
def IsSet (s : Alarms) (handle : Nat) : Prop := ∃ a ∈ s.armed, a.handle = handle

/-- A timer that was set and is not waiting does not go off any more. -/
theorem not_goneOff_of_not_isSet (h : s.Numbered) {handle : Nat} (hissued : handle ≤ s.issued)
    (hnot : ¬ s.IsSet handle) (calls : List Call) :
    ∀ a ∈ allGoneOff (s.performAll calls).1, a.handle ≠ handle := by
  intro a ha hsame
  rcases (passed_performAll h calls).origin a (List.mem_append_left _ ha) with harmed | hnew
  · exact hnot ⟨a, harmed, hsame⟩
  · exact absurd hissued (Nat.not_le_of_gt (hsame ▸ hnew))

theorem not_isSet_cancel (s : Alarms) (handle : Nat) :
    ¬ (s.perform (.cancel handle)).2.IsSet handle := by
  rintro ⟨a, ha, rfl⟩
  simpa using (List.mem_filter.1 ha).2

theorem cancel_of_not_isSet {handle : Nat} (h : ¬ s.IsSet handle) :
    s.perform (.cancel handle) = (.cancelled, s) := by
  have hkept : s.armed.filter (·.handle != handle) = s.armed :=
    List.filter_eq_self.2 fun a ha => bne_iff_ne.2 fun hsame => h ⟨a, ha, hsame⟩
  rw [perform, hkept]

/-- A handle that was not given out, or whose timer has gone off, is not that of a waiting timer. -/
theorem Passed.not_isSet (h : Passed s off t) {handle : Nat}
    (hdone : t.issued < handle ∨ handle ∈ off.map (·.handle)) : ¬ t.IsSet handle := by
  rintro ⟨a, ha, rfl⟩
  rcases hdone with hunknown | hfired
  · exact Nat.not_le_of_gt hunknown (h.within a (List.mem_append_right _ ha))
  · have hdistinct := h.distinct
    rw [List.map_append, List.nodup_append] at hdistinct
    exact hdistinct.2.2 _ hfired _ (List.mem_map_of_mem ha) rfl

end Alarms

end NameRelay
