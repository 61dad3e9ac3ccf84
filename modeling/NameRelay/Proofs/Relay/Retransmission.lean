-- SUMMARY: An interest is sent again a bounded number of times, and not too soon.
import NameRelay.Proofs.Relay.Attempts

/-!
# Retransmission

A sweep hands a pending interest to the routes once more if the last attempt lies back far enough. The
attempts of sweeps that somebody took are counted, and an interest that used them up is dropped by the
next sweep. Joining an interest renews the time of its last attempt maybe, but gives no chance back.
A key stands for one interest from when it begins to wait until it begins again under that key.
-/

namespace NameRelay

/-- The deed is an attempt to hand the interest of this key to the routes. -/
def Deed.isAttempt (key : InterestKey) : Deed → Bool
  | .tried k _ _ => k == key
  | _ => false

/-- The deed is an attempt to hand the interest of this key to the routes, and somebody took it. -/
def Deed.isTaken (key : InterestKey) : Deed → Bool
  | .tried k _ takers => k == key && takers != 0
  | _ => false

theorem Deed.interest?_of_isAttempt {key : InterestKey} {deed : Deed}
    (h : deed.isAttempt key = true) : deed.interest? = some key := by
  cases deed with
  | tried k time takers => exact congrArg some (beq_iff_eq.1 h)
  | served | handed | began => cases h

theorem Deed.interest?_of_isTaken {key : InterestKey} {deed : Deed} (h : deed.isTaken key = true) :
    deed.interest? = some key := by
  cases deed with
  | tried k time takers => exact congrArg some (beq_iff_eq.1 (Bool.and_eq_true_iff.1 h).1)
  | served | handed | began => cases h

namespace Relay

variable {r s t : Relay} {key : InterestKey}

-- ---------------------------------------------------------------------------
-- The time between attempts
-- ---------------------------------------------------------------------------

/-- At this time there was an attempt to hand the interest that waits under the key to the routes. -/
def TriedAt (r : Relay) (key : InterestKey) (time : Instant) : Prop :=
  ∃ before takers after, r.history = before ++ .tried key time takers :: after ∧ .began key ∉ after

/-- An attempt was made before, for the same interest, or it is among the new deeds. -/
theorem TriedAt.of_append {new : List Deed} {time : Instant} (h : s.TriedAt key time)
    (hnew : s.history = r.history ++ new) :
    (r.TriedAt key time ∧ .began key ∉ new) ∨ ∃ takers, .tried key time takers ∈ new := by
  obtain ⟨before, takers, after, hsplit, hafter⟩ := h
  rw [hnew] at hsplit
  rcases List.append_eq_append_iff.1 hsplit with ⟨mid, -, hmid⟩ | ⟨mid, hold, hmid⟩
  · exact .inr ⟨takers, by simp [hmid]⟩
  · cases mid with
    | nil =>
      rw [List.nil_append] at hmid
      exact .inr ⟨takers, hmid ▸ List.mem_cons_self⟩
    | cons first mid =>
      obtain ⟨rfl, rfl⟩ := List.cons.inj hmid
      obtain ⟨hmiddle, hthen⟩ := not_or.1 (List.mem_append.not.1 hafter)
      exact .inl ⟨⟨before, takers, mid, hold, hmiddle⟩, hthen⟩

/-- No attempt lies in the future or after the last attempt that its entry knows of, and no entry
    counts more attempts than there may be. -/
structure Paced (r : Relay) : Prop where
  past : ∀ key time takers, .tried key time takers ∈ r.history → time.micros ≤ r.now.micros
  last : ∀ key e, r.pending.get? key = some e →
    ∀ time, r.TriedAt key time → time.micros ≤ e.lastAttempt.micros
  few : ∀ key e, r.pending.get? key = some e → e.retries ≤ r.timeouts.maxRetransmissions + 1

namespace Paced

theorem rest (h : r.Paced) (hs : Rests r s) : s.Paced := by
  obtain ⟨new, hnew, hnone⟩ := hs.history
  have hquiet : ∀ key time takers, .tried key time takers ∉ new := fun key time takers hmem => by
    cases hnone _ hmem
  refine ⟨fun key time takers hmem => ?_, fun key e he time htried => ?_, fun key e he => ?_⟩
  · rw [hnew] at hmem
    rw [hs.now]
    exact h.past key time takers ((List.mem_append.1 hmem).resolve_right (hquiet key time takers))
  · obtain ⟨old, hold, -, hlast⟩ := hs.pending key e he
    rw [hlast]
    rcases htried.of_append hnew with ⟨hbefore, -⟩ | ⟨takers, hmem⟩
    · exact h.last key old hold time hbefore
    · exact (hquiet key time takers hmem).elim
  · obtain ⟨old, hold, hretries, -⟩ := hs.pending key e he
    rw [hretries, hs.timeouts]
    exact h.few key old hold

theorem start (h : r.Paced) (hwell : r.pending.slots.WellFormed) {e : PendingInterest}
    (hnew : e.retries = 0) : ({ r with pending := (r.pending.insert e).2 }.note
      (.began (r.pending.insert e).1)).Paced := by
  have hhistory : ({ r with pending := (r.pending.insert e).2 }.note
      (.began (r.pending.insert e).1)).history = r.history ++ [.began (r.pending.insert e).1] := rfl
  refine ⟨fun key time takers hmem => ?_, fun key old hold time htried => ?_, fun key old hold => ?_⟩
  · rw [hhistory] at hmem
    exact h.past key time takers ((List.mem_append.1 hmem).resolve_right (by simp))
  · obtain ⟨hbefore, hother⟩ := (htried.of_append hhistory).resolve_right (by simp)
    have hne : key ≠ (r.pending.insert e).1 := fun heq => hother (by simp [heq])
    exact h.last key old ((Slots.get?_insert_of_ne hwell e hne).symm.trans hold) time hbefore
  · rcases Slots.get?_of_get?_insert hold with rfl | hthere
    · rw [hnew]
      exact Nat.zero_le _
    · exact h.few key old hthere

theorem attempt (h : r.Paced) (key : InterestKey) : (r.propagate key).2.Paced := by
  have hhistory := history_propagate r key
  have hstanding := standing_propagate r key
  have htried : ∀ k time takers, .tried k time takers ∈ r.handovers key → k = key ∧ time = r.now := by
    intro k time takers hmem
    unfold handovers at hmem
    split at hmem
    · cases hmem
    · simp only [List.mem_append, List.mem_map, reduceCtorEq, and_false, exists_false, false_or,
        List.mem_singleton, Deed.tried.injEq] at hmem
      exact ⟨hmem.1, hmem.2.1⟩
  refine ⟨fun k time takers hmem => ?_, fun k e he time htriedAt => ?_, fun k e he => ?_⟩
  · rw [hhistory] at hmem
    rw [now_of_standing hstanding]
    rcases List.mem_append.1 hmem with hold | hthen
    · exact h.past k time takers hold
    · rw [(htried k time takers hthen).2]
  · rw [get?_propagate] at he
    have hbefore := htriedAt.of_append hhistory
    split at he
    · obtain ⟨old, hold, rfl⟩ := Option.map_eq_some_iff.1 he
      -- this attempt is the last one now, and none lies in the future
      rcases hbefore with ⟨⟨before, takers, after, hsplit, -⟩, -⟩ | ⟨takers, hmem⟩
      · exact h.past k time takers (by simp [hsplit])
      · rw [(htried k time takers hmem).2]
    · rename_i hne
      rcases hbefore with ⟨hbefore, -⟩ | ⟨takers, hmem⟩
      · exact h.last k e he time hbefore
      · exact (hne (htried k time takers hmem).1).elim
  · rw [get?_propagate] at he
    rw [timeouts_of_standing hstanding]
    split at he
    · obtain ⟨old, hold, rfl⟩ := Option.map_eq_some_iff.1 he
      exact h.few k old hold
    · exact h.few k e he

theorem count (h : r.Paced) {e : PendingInterest} (he : r.pending.get? key = some e)
    (hfew : e.retries ≤ r.timeouts.maxRetransmissions) : ({ r with
      pending := r.pending.modify key fun e => { e with retries := e.retries + 1 } } : Relay).Paced := by
  refine ⟨h.past, fun k old hold time htried => ?_, fun k old hold => ?_⟩
  · obtain ⟨older, holder, rfl | ⟨-, rfl⟩⟩ := Slots.get?_of_get?_modify hold <;>
      exact h.last k _ holder time htried
  · obtain ⟨older, holder, rfl | ⟨rfl, rfl⟩⟩ := Slots.get?_of_get?_modify hold
    · exact h.few k old holder
    · cases he.symm.trans holder
      exact Nat.succ_le_succ hfew

theorem effort (h : r.Paced) (hs : Effort r s) : s.Paced := by
  cases hs with
  | rest hs => exact h.rest hs
  | start hwell hnew => exact h.start hwell hnew
  | attempt key => exact h.attempt key
  | count he hfew => exact h.count he hfew

theorem efforts (h : r.Paced) (hs : Efforts r s) : s.Paced := by
  induction hs with
  | refl => exact h
  | tail _ hs ih => exact ih.effort hs

end Paced

-- ---------------------------------------------------------------------------
-- Chances
-- ---------------------------------------------------------------------------

/-- How often the interest of a key may still be sent again. -/
def chances (r : Relay) (key : InterestKey) : Nat :=
  match r.pending.get? key with
  | none => 0
  | some e => r.timeouts.maxRetransmissions + 1 - e.retries

theorem chances_of_get? {e : PendingInterest} (he : r.pending.get? key = some e) :
    r.chances key = r.timeouts.maxRetransmissions + 1 - e.retries := by
  rw [chances, he]

theorem chances_le (r : Relay) (key : InterestKey) :
    r.chances key ≤ r.timeouts.maxRetransmissions + 1 := by
  unfold chances
  split
  · exact Nat.zero_le _
  · exact Nat.sub_le _ _

/-- If the entry was there before, and counted no more attempts, no chance has come back. -/
theorem chances_mono (ht : s.timeouts = r.timeouts)
    (h : ∀ e, s.pending.get? key = some e → ∃ old, r.pending.get? key = some old ∧
      old.retries ≤ e.retries) : s.chances key ≤ r.chances key := by
  unfold chances
  cases hget : s.pending.get? key with
  | none => exact Nat.zero_le _
  | some e =>
    obtain ⟨old, hold, hle⟩ := h e hget
    rw [hold, ht]
    exact Nat.sub_le_sub_left hle _

/-- The history grows, and while no interest begins to wait under the key, no chance comes back. -/
structure Spends (key : InterestKey) (r s : Relay) : Prop where
  timeouts : s.timeouts = r.timeouts
  history : ∃ new, s.history = r.history ++ new ∧
    (.began key ∉ new → s.chances key ≤ r.chances key)

theorem Spends.trans (h : Spends key r s) (h' : Spends key s t) : Spends key r t := by
  obtain ⟨new, hnew, hfirst⟩ := h.history
  obtain ⟨more, hmore, hthen⟩ := h'.history
  refine ⟨h'.timeouts.trans h.timeouts, new ++ more, ?_, fun hnot => ?_⟩
  · rw [hmore, hnew, List.append_assoc]
  · obtain ⟨hnot, hnot'⟩ := not_or.1 (List.mem_append.not.1 hnot)
    exact (hthen hnot').trans (hfirst hnot)

theorem Effort.spends (h : Effort r s) (key : InterestKey) : Spends key r s := by
  cases h with
  | rest hs =>
    obtain ⟨new, hnew, -⟩ := hs.history
    refine ⟨hs.timeouts, new, hnew, fun _ => chances_mono hs.timeouts fun e he => ?_⟩
    obtain ⟨old, hold, hretries, -⟩ := hs.pending key e he
    exact ⟨old, hold, hretries.ge⟩
  | @start hwell e _ =>
    refine ⟨rfl, [.began (r.pending.insert e).1], rfl, fun hother => chances_mono rfl fun old hold => ?_⟩
    have hne : key ≠ (r.pending.insert e).1 := fun heq => hother (by simp [heq])
    exact ⟨old, (Slots.get?_insert_of_ne hwell e hne).symm.trans hold, Nat.le_refl _⟩
  | attempt k =>
    have ht := timeouts_of_standing (standing_propagate r k)
    refine ⟨ht, _, history_propagate r k, fun _ => chances_mono ht fun e he => ?_⟩
    rw [get?_propagate] at he
    split at he
    · obtain ⟨old, hold, rfl⟩ := Option.map_eq_some_iff.1 he
      exact ⟨old, hold, Nat.le_refl _⟩
    · exact ⟨e, he, Nat.le_refl _⟩
  | @count k _ _ _ =>
    refine ⟨rfl, [], (List.append_nil _).symm, fun _ => chances_mono rfl fun e he => ?_⟩
    obtain ⟨old, hold, rfl | ⟨-, rfl⟩⟩ := Slots.get?_of_get?_modify he
    · exact ⟨e, hold, Nat.le_refl _⟩
    · exact ⟨old, hold, Nat.le_succ _⟩

theorem Efforts.spends (h : Efforts r s) (key : InterestKey) : Spends key r s := by
  induction h with
  | refl => exact ⟨rfl, [], (List.append_nil _).symm, fun _ => Nat.le_refl _⟩
  | tail _ hs ih => exact ih.trans (hs.spends key)

-- ---------------------------------------------------------------------------
-- The sweep
-- ---------------------------------------------------------------------------

/-- These are the deeds about the interest of the key on the way from `r` to `s`. -/
def Tells (key : InterestKey) (deeds : List Deed) (r s : Relay) : Prop :=
  ∃ new, s.history = r.history ++ new ∧ new.filter (·.interest? == some key) = deeds

theorem Tells.trans {deeds more : List Deed} (h : Tells key deeds r s) (h' : Tells key more s t) :
    Tells key (deeds ++ more) r t := by
  obtain ⟨new, hnew, hfirst⟩ := h
  obtain ⟨later, hthen, hmore⟩ := h'
  refine ⟨new ++ later, by rw [hthen, hnew, List.append_assoc], ?_⟩
  rw [List.filter_append, hfirst, hmore]

/-- How many of the new deeds are such and such can be told from those about the interest. -/
theorem Tells.countP {deeds : List Deed} {p : Deed → Bool} (h : Tells key deeds r s)
    (hp : ∀ deed, p deed = true → deed.interest? = some key) :
    (r.since s).countP p = deeds.countP p := by
  obtain ⟨new, hnew, rfl⟩ := h
  rw [since_of_append hnew, List.countP_filter]
  refine List.countP_congr fun deed _ => ?_
  rw [Bool.and_eq_true, beq_iff_eq]
  exact ⟨fun hdeed => ⟨hdeed, hp deed hdeed⟩, And.left⟩

theorem Rests.tells (h : Rests r s) (key : InterestKey) : Tells key [] r s := by
  obtain ⟨new, hnew, hnone⟩ := h.history
  refine ⟨new, hnew, List.filter_eq_nil_iff.2 fun deed hmem => ?_⟩
  rw [hnone deed hmem]
  simp

theorem history_retransmit (r : Relay) (key : InterestKey) :
    (r.retransmit key).history = r.history ++ r.handovers key := by
  rcases retransmit_cases r key with heq | heq <;> rw [heq] <;> exact history_propagate r key

/-- Sending one interest again is no deed about another. -/
theorem tells_retransmit_other {k : InterestKey} (h : key ≠ k) :
    Tells key [] r (r.retransmit k) := by
  refine ⟨_, history_retransmit r k, List.filter_eq_nil_iff.2 fun deed hmem => ?_⟩
  unfold handovers at hmem
  split at hmem
  · cases hmem
  · rcases List.mem_append.1 hmem with hhanded | htried
    · obtain ⟨d, -, rfl⟩ := List.mem_map.1 hhanded
      simp [Deed.interest?]
    · rw [List.mem_singleton.1 htried]
      simpa [Deed.interest?] using h.symm

/-- Sending an interest again is one attempt. -/
theorem tells_retransmit {e : PendingInterest} (he : r.pending.get? key = some e) :
    Tells key [.tried key r.now (r.propagate key).1] r (r.retransmit key) := by
  refine ⟨_, history_retransmit r key, ?_⟩
  simp [handovers, he, List.filter_append, List.filter_map, Function.comp_def, Deed.interest?]

theorem foldl_retransmit_other {keys : List InterestKey} (h : key ∉ keys) :
    Tells key [] r (keys.foldl retransmit r) ∧
      (keys.foldl retransmit r).pending.get? key = r.pending.get? key := by
  induction keys generalizing r with
  | nil => exact ⟨⟨[], (List.append_nil _).symm, rfl⟩, rfl⟩
  | cons k keys ih =>
    obtain ⟨hne, hrest⟩ := not_or.1 (List.mem_cons.not.1 h)
    obtain ⟨htells, hget⟩ := ih (r := r.retransmit k) hrest
    exact ⟨(tells_retransmit_other hne).trans htells,
      hget.trans ((get?_retransmit r k key).trans (if_neg hne))⟩

/-- Of some interests that are sent again, each is sent once. -/
theorem foldl_retransmit_self {keys : List InterestKey} (hnodup : keys.Nodup) (h : key ∈ keys)
    {e : PendingInterest} (he : r.pending.get? key = some e) :
    ∃ takers, Tells key [.tried key r.now takers] r (keys.foldl retransmit r) ∧
      (keys.foldl retransmit r).pending.get? key = some (e.retried r.now takers) := by
  induction keys generalizing r with
  | nil => cases h
  | cons k keys ih =>
    obtain ⟨hnot, hrest⟩ := List.nodup_cons.1 hnodup
    by_cases hk : key = k
    · subst hk
      obtain ⟨htells, hget⟩ := foldl_retransmit_other (r := r.retransmit key) hnot
      refine ⟨_, (tells_retransmit he).trans htells, hget.trans ?_⟩
      rw [get?_retransmit, if_pos rfl, he]
      rfl
    · have hmem := (List.mem_cons.1 h).resolve_left hk
      have hsame := (get?_retransmit r k key).trans (if_neg hk)
      obtain ⟨takers, htells, hget⟩ := ih (r := r.retransmit k) hrest hmem (hsame.trans he)
      have hnow := now_of_standing (standing_retransmit r k)
      rw [hnow] at htells hget
      exact ⟨takers, (tells_retransmit_other hk).trans htells, hget⟩

/-- What a sweep does about the interest of a key: nothing, or one attempt, if it is time for that. An
    interest that was sent again too often is dropped. -/
inductive Sweeps (key : InterestKey) (r s : Relay) : Prop where
  | leaves (h : Tells key [] r s) (hkept : ∀ f, s.pending.get? key = some f →
      ∃ e, r.pending.get? key = some e ∧ e.retries ≤ r.timeouts.maxRetransmissions ∧
        f.retries = e.retries) : Sweeps key r s
  | retries {e : PendingInterest} {takers : Nat} (he : r.pending.get? key = some e)
      (hfew : e.retries ≤ r.timeouts.maxRetransmissions)
      (hdue : r.timeouts.ageingInterval ≤ r.now.elapsed e.lastAttempt)
      (h : Tells key [.tried key r.now takers] r s)
      (hcounted : ∀ f, s.pending.get? key = some f →
        f.retries = e.retries + if takers = 0 then 0 else 1) : Sweeps key r s

theorem Sweeps.rests (h : Sweeps key r s) (hs : Rests s t) : Sweeps key r t := by
  cases h with
  | leaves h hkept =>
    refine .leaves (h.trans (hs.tells key)) fun f hf => ?_
    obtain ⟨old, hold, hretries, -⟩ := hs.pending key f hf
    obtain ⟨e, he, hfew, hsame⟩ := hkept old hold
    exact ⟨e, he, hfew, hretries.trans hsame⟩
  | retries he hfew hdue h hcounted =>
    refine .retries he hfew hdue (h.trans (hs.tells key)) fun f hf => ?_
    obtain ⟨old, hold, hretries, -⟩ := hs.pending key f hf
    exact hretries.trans (hcounted old hold)

theorem Sweeps.after (h : Sweeps key s t) (hs : Rests r s) : Sweeps key r t := by
  cases h with
  | leaves h hkept =>
    refine .leaves ((hs.tells key).trans h) fun f hf => ?_
    obtain ⟨e, he, hfew, hsame⟩ := hkept f hf
    obtain ⟨old, hold, hretries, -⟩ := hs.pending key e he
    rw [hs.timeouts, hretries] at hfew
    exact ⟨old, hold, hfew, hsame.trans hretries⟩
  | @retries e takers he hfew hdue h hcounted =>
    obtain ⟨old, hold, hretries, hlast⟩ := hs.pending key e he
    rw [hs.timeouts] at hfew hdue
    rw [hs.now] at hdue h
    exact .retries hold (hretries ▸ hfew) (hlast ▸ hdue) ((hs.tells key).trans h) (hretries ▸ hcounted)

/-- What a sweep leaves was not sent again too often. -/
theorem Sweeps.few (h : Sweeps key r s) {f : PendingInterest} (hf : s.pending.get? key = some f) :
    ∃ e, r.pending.get? key = some e ∧ e.retries ≤ r.timeouts.maxRetransmissions := by
  cases h with
  | leaves _ hkept =>
    obtain ⟨e, he, hfew, -⟩ := hkept f hf
    exact ⟨e, he, hfew⟩
  | retries he hfew => exact ⟨_, he, hfew⟩

theorem sweeps_ageInterests (r : Relay) (key : InterestKey) : Sweeps key r r.ageInterests := by
  have hunexpired := Rests.unexpired r
  rw [ageInterests_eq]
  refine Sweeps.after ?_ hunexpired
  by_cases hdue : key ∈ r.unexpired.dueKeys
  · obtain ⟨e, he, htime⟩ := mem_dueKeys.1 hdue
    obtain ⟨takers, htells, hget⟩ := foldl_retransmit_self (nodup_dueKeys _) hdue he
    have hfew := (few_of_unexpired he).2
    rw [← hunexpired.timeouts] at hfew
    refine .retries he hfew ?_ htells fun f hf => ?_
    · exact of_decide_eq_true (Bool.and_eq_true_iff.1 htime).1
    · cases hget.symm.trans hf
      rfl
  · obtain ⟨htells, hget⟩ := foldl_retransmit_other (r := r.unexpired) hdue
    refine .leaves htells fun f hf => ⟨f, hget.symm.trans hf, ?_, rfl⟩
    rw [hunexpired.timeouts]
    exact (few_of_unexpired (hget.symm.trans hf)).2

theorem sweeps_onTimer_ageing (r : Relay) (key : InterestKey) :
    Sweeps key r (r.onTimer .ageing) := by
  have hdisarmed : Rests r { r with ageingTimer := none } := .of_same rfl rfl rfl rfl
  have hbefore := hdisarmed.trans (.ageContents { r with ageingTimer := none })
  have hswept := (sweeps_ageInterests _ key).after hbefore
  have harmed := (hswept.rests (.ageFaces _)).rests (.armAgeing _)
  rcases onTimer_ageing_cases r rfl with heq | ⟨text, heq⟩ <;> rw [heq]
  · exact harmed
  · exact harmed.rests (.of_still (log_still _ _ _))

-- ---------------------------------------------------------------------------
-- Runs
-- ---------------------------------------------------------------------------

/-- A call that does not set the clock is done in efforts. -/
theorem efforts_perform (h : Reachable r) {call : Call} (hclock : ¬call.TellsTime) :
    Efforts r (r.perform call) := by
  have hworks := works_perform h.consistent h call
  rw [eq_false hclock] at hworks
  exact efforts_of_works h.consistent hworks

theorem spends_perform (h : Reachable r) (key : InterestKey) (call : Call) :
    Spends key r (r.perform call) := by
  by_cases hclock : call.TellsTime
  · cases call with
    | clock now => exact ⟨rfl, [], (List.append_nil _).symm, fun _ => Nat.le_refl _⟩
    | _ => exact hclock.elim
  · exact (efforts_perform h hclock).spends key

theorem spends_performAll (h : Reachable r) (key : InterestKey) (calls : List Call) :
    Spends key r (r.performAll calls) := by
  induction calls generalizing r with
  | nil => exact ⟨rfl, [], (List.append_nil _).symm, fun _ => Nat.le_refl _⟩
  | cons call calls ih => exact (spends_perform h key call).trans (ih (h.perform call))

/-- Whether a call is a sweep that hands the interest of the key to somebody, as a number. -/
def resends (r : Relay) (key : InterestKey) : Call → Nat
  | .onTimer .ageing => if (r.since (r.onTimer .ageing)).any (·.isTaken key) then 1 else 0
  | _ => 0

/-- How many sweeps of a run hand the interest of the key to somebody. -/
def sendingSweeps (key : InterestKey) : Relay → List Call → Nat
  | _, [] => 0
  | r, call :: calls => r.resends key call + sendingSweeps key (r.perform call) calls

/-- A sweep takes a chance if it hands the interest to somebody. -/
theorem chances_sweep (h : Reachable r) (key : InterestKey) :
    (r.since (r.onTimer .ageing)).countP (·.isTaken key) + (r.onTimer .ageing).chances key ≤
      r.chances key := by
  have ht : (r.onTimer .ageing).timeouts = r.timeouts :=
    (spends_perform h key (.onTimer .ageing)).timeouts
  cases sweeps_onTimer_ageing r key with
  | leaves htells hkept =>
    rw [htells.countP fun _ => Deed.interest?_of_isTaken, List.countP_nil, Nat.zero_add]
    refine chances_mono ht fun f hf => ?_
    obtain ⟨e, he, -, hsame⟩ := hkept f hf
    exact ⟨e, he, hsame.ge⟩
  | @retries e takers he hfew _ htells hcounted =>
    have htaken : [Deed.tried key r.now takers].countP (·.isTaken key) =
        if takers = 0 then 0 else 1 := by
      simp [Deed.isTaken, List.countP_singleton]
    rw [htells.countP fun _ => Deed.interest?_of_isTaken, htaken, chances_of_get? he]
    cases hleft : (r.onTimer .ageing).pending.get? key with
    | none =>
      simp only [chances, hleft]
      split <;> omega
    | some f =>
      rw [chances_of_get? hleft, ht, hcounted f hleft]
      split <;> omega

/-- As long as the interest of a key is the same, each sweep that hands it to somebody takes a chance. -/
theorem resends_add_chances_le (h : Reachable r) {call : Call}
    (hsame : .began key ∉ r.since (r.perform call)) :
    r.resends key call + (r.perform call).chances key ≤ r.chances key := by
  obtain ⟨new, hnew, hless⟩ := (spends_perform h key call).history
  rw [since_of_append hnew] at hsame
  unfold resends
  split
  · refine (Nat.add_le_add_right ?_ _).trans (chances_sweep h key)
    split
    · rename_i hany
      exact List.countP_pos_iff.2 (List.any_eq_true.1 hany)
    · exact Nat.zero_le _
  · rw [Nat.zero_add]
    exact hless hsame

theorem sendingSweeps_add_chances_le (h : Reachable r) {calls : List Call}
    (hsame : .began key ∉ r.since (r.performAll calls)) :
    sendingSweeps key r calls + (r.performAll calls).chances key ≤ r.chances key := by
  induction calls generalizing r with
  | nil => exact (Nat.zero_add _).le
  | cons call calls ih =>
    obtain ⟨new, hnew, -⟩ := (spends_perform h key call).history
    obtain ⟨more, hmore, -⟩ := (spends_performAll (h.perform call) key calls).history
    have hlast : r.performAll (call :: calls) = (r.perform call).performAll calls := rfl
    rw [hlast, since_of_append (hmore.trans (by rw [hnew, List.append_assoc]))] at hsame
    obtain ⟨hfirst, hthen⟩ := not_or.1 (List.mem_append.not.1 hsame)
    rw [← since_of_append hnew] at hfirst
    rw [← since_of_append hmore] at hthen
    have hone := resends_add_chances_le h hfirst
    have hrest := ih (h.perform call) hthen
    rw [hlast, sendingSweeps]
    omega

/-- A state that a run under a configuration reaches in which the clock never goes back. -/
inductive SteadilyReached : Config → Relay → Prop where
  | fresh (now : Instant) (digest : Bytes → Option Bytes) (grants : Nat → Bool) :
      SteadilyReached {} (Relay.fresh (Host.fresh now digest grants))
  | configured (now : Instant) (digest : Bytes → Option Bytes) (grants : Nat → Bool) {c : Config}
      {r : Relay} (h : Relay.configured (Host.fresh now digest grants) c = (.ok (), r)) :
      SteadilyReached c r
  | perform {c : Config} {r : Relay} (h : SteadilyReached c r) (call : Call)
      (hclock : r.now.micros ≤ (r.perform call).now.micros) : SteadilyReached c (r.perform call)

/-- The clock never goes back while these calls are made. -/
def TimeRuns : Relay → List Call → Prop
  | _, [] => True
  | r, call :: calls => r.now.micros ≤ (r.perform call).now.micros ∧ TimeRuns (r.perform call) calls

instance decidableTimeRuns : (r : Relay) → (calls : List Call) → Decidable (TimeRuns r calls)
  | _, [] => isTrue trivial
  | r, call :: calls =>
    have := decidableTimeRuns (r.perform call) calls
    inferInstanceAs (Decidable (_ ∧ _))

theorem SteadilyReached.performAll {c : Config} (h : SteadilyReached c r) {calls : List Call}
    (hruns : TimeRuns r calls) : SteadilyReached c (r.performAll calls) := by
  induction calls generalizing r with
  | nil => exact h
  | cons call calls ih => exact ih (h.perform call hruns.1) hruns.2

theorem SteadilyReached.reachable {c : Config} (h : SteadilyReached c r) : ReachableUnder c r := by
  induction h with
  | fresh now digest grants => exact .fresh now digest grants
  | configured now digest grants hr => exact .configured now digest grants hr
  | perform _ call _ ih => exact ih.perform call

theorem paced_withLimits (now : Instant) (digest : Bytes → Option Bytes) (grants : Nat → Bool)
    (c : Config) : (withLimits (Host.fresh now digest grants) c).Paced := by
  have hnone : ∀ key, (withLimits (Host.fresh now digest grants) c).pending.get? key = none :=
    fun key => rfl
  refine ⟨fun key time takers hmem => ?_, fun key e he => ?_, fun key e he => ?_⟩
  · cases hmem
  · cases (hnone key).symm.trans he
  · cases (hnone key).symm.trans he

/-- Where the clock never goes back, no attempt lies in the future or after the last. -/
theorem SteadilyReached.paced {c : Config} (h : SteadilyReached c r) :
    r.Paced ∧ r.timeouts = c.timeouts := by
  induction h with
  | fresh now digest grants => exact ⟨paced_withLimits now digest grants {}, rfl⟩
  | @configured now digest grants c r hr =>
    have hworks : Works True False _ _ := works_of_eq (works_configured _ c) hr
    have hefforts := efforts_of_works (consistent_withLimits _ c) hworks
    exact ⟨(paced_withLimits now digest grants c).efforts hefforts, (hefforts.spends ⟨0, 0⟩).timeouts⟩
  | @perform c r h call hclock ih =>
    obtain ⟨hpaced, htimeouts⟩ := ih
    have hreachable := h.reachable.reachable
    refine ⟨?_, (spends_perform hreachable ⟨0, 0⟩ call).timeouts.trans htimeouts⟩
    by_cases hticks : call.TellsTime
    · cases call with
      | clock now =>
        exact ⟨fun key time takers hmem => (hpaced.past key time takers hmem).trans hclock,
          hpaced.last, hpaced.few⟩
      | _ => exact hticks.elim
    · exact hpaced.efforts (efforts_perform hreachable hticks)

/-- An interest that has no chance left is dropped by the next sweep. -/
theorem dropped_of_chances (h : r.chances key = 0) : (r.onTimer .ageing).pending.get? key = none := by
  refine Option.eq_none_iff_forall_ne_some.2 fun f hf => ?_
  obtain ⟨e, he, hfew⟩ := (sweeps_onTimer_ageing r key).few hf
  simp only [chances, he] at h
  omega

/-- A sweep makes one attempt at most for the interest of a key. -/
theorem attempts_of_sweep (r : Relay) (key : InterestKey) :
    (r.since (r.onTimer .ageing)).countP (·.isAttempt key) ≤ 1 := by
  cases sweeps_onTimer_ageing r key with
  | leaves htells => exact (htells.countP fun _ => Deed.interest?_of_isAttempt).le.trans (by simp)
  | retries _ _ _ htells =>
    exact (htells.countP fun _ => Deed.interest?_of_isAttempt).le.trans List.countP_le_length

/-- A sweep makes an attempt only when it is time for it. -/
theorem due_of_sweep {time : Instant} {takers : Nat}
    (h : .tried key time takers ∈ r.since (r.onTimer .ageing)) :
    ∃ e, r.pending.get? key = some e ∧ time = r.now ∧
      r.timeouts.ageingInterval ≤ r.now.elapsed e.lastAttempt := by
  have hmem {deeds : List Deed} (ht : Tells key deeds r (r.onTimer .ageing)) :
      .tried key time takers ∈ deeds := by
    obtain ⟨new, hnew, rfl⟩ := ht
    rw [since_of_append hnew] at h
    exact List.mem_filter.2 ⟨h, by simp [Deed.interest?]⟩
  cases sweeps_onTimer_ageing r key with
  | leaves htells => cases hmem htells
  | retries he _ hdue htells =>
    cases List.mem_singleton.1 (hmem htells)
    exact ⟨_, he, rfl, hdue⟩

/-- Where the clock never goes back: in whatever calls follow, while a key stands for the same interest,
    the sweeps that hand it to somebody are at most one more than it may be sent again, and the next
    sweep drops an interest that had them all. The counter goes no further, and fits 32 bits. A
    sweep makes one attempt at most, an ageing interval or more after every attempt before. -/
theorem retransmission_bounded {c : Config} (h : SteadilyReached c r)
    (hfits : c.maxRetransmissions < 0xffffffff) (key : InterestKey) :
    (∀ calls, .began key ∉ r.since (r.performAll calls) →
      sendingSweeps key r calls ≤ c.maxRetransmissions + 1 ∧
      (sendingSweeps key r calls = c.maxRetransmissions + 1 →
        ((r.performAll calls).onTimer .ageing).pending.get? key = none)) ∧
    (∀ e, r.pending.get? key = some e →
      e.retries ≤ c.maxRetransmissions + 1 ∧ e.retries < 0x100000000) ∧
    (r.since (r.onTimer .ageing)).countP (·.isAttempt key) ≤ 1 ∧
    ∀ time takers, .tried key time takers ∈ r.since (r.onTimer .ageing) →
      ∀ earlier, r.TriedAt key earlier →
        earlier.micros + c.timeouts.ageingInterval ≤ time.micros := by
  obtain ⟨hpaced, htimeouts⟩ := h.paced
  have hmost : r.timeouts.maxRetransmissions = c.maxRetransmissions :=
    congrArg Timeouts.maxRetransmissions htimeouts
  refine ⟨fun calls hsame => ?_, fun e he => ?_, attempts_of_sweep r key,
    fun time takers hmem earlier htried => ?_⟩
  · have hsent := sendingSweeps_add_chances_le h.reachable.reachable hsame
    have hchances := r.chances_le key
    refine ⟨by omega, fun hall => dropped_of_chances ?_⟩
    omega
  · have hfew := hpaced.few key e he
    omega
  · obtain ⟨e, he, rfl, hdue⟩ := due_of_sweep hmem
    have hlast := hpaced.last key e he earlier htried
    obtain ⟨before, takers', after, hsplit, -⟩ := htried
    have hpast := hpaced.past key earlier takers' (by simp [hsplit])
    rw [htimeouts, Instant.elapsed] at hdue
    omega

/-- A reader asks for what the application offers. -/
def askedOnce : List Call :=
  [.addInterface (.path "own") 0 {}, .addRoute ⟨.ndn, [[97]], none, .none⟩ .ndn .tap,
    .receive 0 [5, 11, 7, 3, 8, 1, 97, 10, 4, 0, 0, 0, 1] (.path "reader")]

/-- Where an interest may be sent again once, the sweeps of the next two seconds hand it to the
    application, the second of them a second after the first, and the sweep after that drops it. -/
theorem second_retry_is_last :
    let c : Config := { maxRetransmissions := 1 }
    let key : InterestKey := ⟨0, 0⟩
    let r := (configured (Host.fresh ⟨0⟩ (fun _ => none) fun _ => true) c).2.performAll askedOnce
    let once : List Call := [.clock ⟨1000000⟩, .onTimer .ageing, .clock ⟨2000000⟩]
    let twice : List Call := once ++ [.onTimer .ageing]
    SteadilyReached c r ∧ SteadilyReached c (r.performAll once) ∧
      c.maxRetransmissions < 0xffffffff ∧ .began key ∈ r.history ∧
      .began key ∉ r.since (r.performAll twice) ∧ sendingSweeps key r twice = 2 ∧
      ((r.performAll twice).onTimer .ageing).pending.get? key = none ∧
      .tried key ⟨2000000⟩ 1 ∈ (r.performAll once).since ((r.performAll once).onTimer .ageing) ∧
      ∀ earlier, (r.performAll once).TriedAt key earlier →
        earlier.micros + c.timeouts.ageingInterval ≤ 2000000 := by
  intro c key r once twice
  have hconfigured : configured (Host.fresh ⟨0⟩ (fun _ => none) fun _ => true) c =
    (.ok (), (configured (Host.fresh ⟨0⟩ (fun _ => none) fun _ => true) c).2) := rfl
  have hr : SteadilyReached c r :=
    (SteadilyReached.configured _ _ _ hconfigured).performAll (by decide +kernel)
  have hs : SteadilyReached c (r.performAll once) := hr.performAll (by decide +kernel)
  have hsame : .began key ∉ r.since (r.performAll twice) := by decide +kernel
  have htwo : sendingSweeps key r twice = 2 := by decide +kernel
  have hagain : .tried key ⟨2000000⟩ 1 ∈
      (r.performAll once).since ((r.performAll once).onTimer .ageing) := by decide +kernel
  have hdropped := ((retransmission_bounded hr (by decide) key).1 twice hsame).2 htwo
  have hpaced := (retransmission_bounded hs (by decide) key).2.2.2 ⟨2000000⟩ 1 hagain
  exact ⟨hr, hs, by decide, by decide +kernel, hsame, htwo, hdropped, hagain, hpaced⟩

end Relay

end NameRelay
