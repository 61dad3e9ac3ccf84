-- SUMMARY: How often and when a pending interest is handed to the routes, step by step.
import NameRelay.Proofs.Relay.Confinement
import NameRelay.Proofs.Relay.Delivery
import NameRelay.Proofs.Relay.Expiry

/-!
# Attempts

An interest is handed to the routes when it begins to wait, maybe when another face joins, and in the
sweeps. Its entry keeps the time of the last attempt and counts the attempts of the sweeps that
somebody took. Of all that a relay does little bears on this: an effort is one such step, and
`efforts_of_work` says that whatever else is done does not count. What efforts keep is shown here once.
No chance that an interest has to be sent again comes back, and no attempt lies after the last.
-/

namespace NameRelay

/-- The pending interest that a deed is about. -/
def Deed.interest? : Deed → Option InterestKey
  | .began key | .tried key _ _ => some key
  | .served _ _ | .handed _ _ => none

/-- The entry after a sweep handed its interest to the routes, and so many destinations took it. -/
def PendingInterest.retried (e : PendingInterest) (now : Instant) (takers : Nat) : PendingInterest :=
  { e with lastAttempt := now, retries := e.retries + if takers = 0 then 0 else 1 }

namespace Relay

variable {r s t : Relay} {key : InterestKey}

-- ---------------------------------------------------------------------------
-- What is no effort
-- ---------------------------------------------------------------------------

/-- No interest began to wait or was handed to the routes. Those that are pending still were pending
    before, and their attempts are the same. -/
structure Rests (r s : Relay) : Prop where
  now : s.now = r.now
  timeouts : s.timeouts = r.timeouts
  history : ∃ new, s.history = r.history ++ new ∧ ∀ deed ∈ new, deed.interest? = none
  pending : ∀ key e, s.pending.get? key = some e → ∃ old, r.pending.get? key = some old ∧
    e.retries = old.retries ∧ e.lastAttempt = old.lastAttempt

namespace Rests

/-- Contents were served maybe. Of the pending interests none is new, and none was sent again. -/
theorem of_hands (hh : HandsNothing r s) (hn : s.now = r.now) (ht : s.timeouts = r.timeouts)
    (hp : ∀ key e, s.pending.get? key = some e → ∃ old, r.pending.get? key = some old ∧
      e.retries = old.retries ∧ e.lastAttempt = old.lastAttempt) : Rests r s := by
  obtain ⟨new, hnew, hserved⟩ := hh.history
  refine ⟨hn, ht, ⟨new, hnew, fun deed hmem => ?_⟩, hp⟩
  obtain ⟨content, face, rfl⟩ := hserved deed hmem
  rfl

/-- Contents were served maybe, and no interest began to wait. -/
theorem of_standing (hh : HandsNothing r s) (hs : s.standing = r.standing)
    (hp : ∀ key e, s.pending.get? key = some e → r.pending.get? key = some e) : Rests r s :=
  of_hands hh (now_of_standing hs) (timeouts_of_standing hs) fun key e he =>
    ⟨e, hp key e he, rfl, rfl⟩

/-- Neither the history nor the pending interests changed. -/
theorem of_same (hn : s.now = r.now) (ht : s.timeouts = r.timeouts) (hh : s.history = r.history)
    (hp : s.pending = r.pending) : Rests r s := by
  refine ⟨hn, ht, ⟨[], by rw [hh, List.append_nil], by simp⟩, fun key e he => ?_⟩
  rw [hp] at he
  exact ⟨e, he, rfl, rfl⟩

theorem of_still (h : s.still = r.still) : Rests r s := by
  refine of_standing (.of_still h) (standing_of_tables (tables_of_still h)) fun key e he => ?_
  rwa [pending_of_still h] at he

theorem trans (h : Rests r s) (h' : Rests s t) : Rests r t := by
  obtain ⟨new, hnew, hfirst⟩ := h.history
  obtain ⟨more, hmore, hthen⟩ := h'.history
  refine ⟨h'.now.trans h.now, h'.timeouts.trans h.timeouts, ⟨new ++ more, ?_, fun deed hmem => ?_⟩,
    fun key e he => ?_⟩
  · rw [hmore, hnew, List.append_assoc]
  · exact (List.mem_append.1 hmem).elim (hfirst deed) (hthen deed)
  · obtain ⟨mid, hmid, hretries, hlast⟩ := h'.pending key e he
    obtain ⟨old, hold, hretries', hlast'⟩ := h.pending key mid hmid
    exact ⟨old, hold, hretries.trans hretries', hlast.trans hlast'⟩

theorem servePending (r : Relay) (content : Packet) : Rests r (r.servePending content).2 :=
  of_standing (hands_servePending r content) (standing_servePending r content) fun _ _ he =>
    (pending_servePending he).1

theorem store (r : Relay) (content : Packet) (flags : ContentFlags) :
    Rests r (r.store content flags).2 := by
  refine of_standing (hands_store r content flags) (standing_store r content flags) fun key e he => ?_
  rwa [(store_unrelated r content flags).1] at he

theorem handleContent (r : Relay) (origin : FaceKey) (content : Packet) :
    Rests r (r.handleContent origin content).2 := by
  refine of_standing (hands_handleContent r origin content) (standing_handleContent r origin content)
    fun key e he => ?_
  by_cases hstored : r.NotStored content
  · rw [(handleContent_of_notStored hstored origin).1] at he
    exact (pending_servePending he).1
  · rwa [pending_of_still (handleContent_of_stored hstored origin)] at he

theorem answerFromStore (r : Relay) (origin : FaceKey) (interest : Packet) (key : ContentKey) :
    Rests r (r.answerFromStore origin interest key).2 := by
  refine of_standing (hands_answerFromStore r origin interest key)
    (standing_answerFromStore r origin interest key) fun k e he => ?_
  rwa [pending_answerFromStore] at he

/-- Other faces wait, or other waiters are noted, with the pending interests. -/
theorem modifyPending (r : Relay) (key : InterestKey) {f : PendingInterest → PendingInterest}
    (hf : ∀ e, (f e).retries = e.retries ∧ (f e).lastAttempt = e.lastAttempt) :
    Rests r { r with pending := r.pending.modify key f } := by
  refine of_hands (.of_same rfl rfl) rfl rfl fun k e he => ?_
  obtain ⟨old, hold, rfl | ⟨-, rfl⟩⟩ := Slots.get?_of_get?_modify he
  · exact ⟨e, hold, rfl, rfl⟩
  · exact ⟨old, hold, hf old⟩

theorem removeFace (r : Relay) (key : FaceKey) : Rests r (r.removeFace key).2 := by
  refine of_hands (hands_removeFace r key) ?_ ?_ fun k e he => ?_
  · unfold Relay.removeFace
    split <;> rfl
  · unfold Relay.removeFace
    split <;> rfl
  · unfold Relay.removeFace at he
    split at he
    · exact ⟨e, he, rfl, rfl⟩
    · have hget := (Slots.get?_drain r.pending.slots (·.removeWaiter key) (·.waiters.isEmpty)
        k).symm.trans he
      obtain ⟨old, hold, rfl⟩ := Option.map_eq_some_iff.1 (Option.filter_eq_some_iff.1 hget).1
      exact ⟨old, hold, rfl, rfl⟩

theorem ageFaces (r : Relay) : Rests r r.ageFaces :=
  List.foldlRecOn (motive := Rests r) r.idleFaces _ (.of_same rfl rfl rfl rfl) fun s hs key _ =>
    hs.trans (removeFace s key)

theorem ageContents (r : Relay) : Rests r r.ageContents := by
  refine of_standing (hands_ageContents r) (standing_ageContents r) fun key e he => ?_
  rwa [pending_ageContents] at he

theorem armAgeing (r : Relay) : Rests r r.armAgeing.2 := by
  have hset : Rests r (r.setTimer r.timeouts.ageingInterval .ageing).2 :=
    of_still (setTimer_still r _ _)
  obtain ⟨timer, harm⟩ := armAgeing_eq r
  rw [harm]
  exact hset.trans (of_same rfl rfl rfl rfl)

theorem stop (r : Relay) : Rests r r.stop := by
  have hstopped : Rests r { r with ageingTimer := none } := of_same rfl rfl rfl rfl
  have htables := tables_stop r
  refine of_hands (hands_stop r) (now_of_standing (standing_of_tables htables) :)
    (timeouts_of_standing (standing_of_tables htables) :) fun key e he => ?_
  rw [pending_of_tables htables] at he
  exact ⟨e, he, rfl, rfl⟩

end Rests

-- ---------------------------------------------------------------------------
-- Efforts
-- ---------------------------------------------------------------------------

/-- One step of what a relay does about its pending interests. -/
inductive Effort : Relay → Relay → Prop where
  /-- Nothing is done about them. -/
  | rest {r s : Relay} (h : Rests r s) : Effort r s
  /-- An interest begins to wait, and was not sent again yet. -/
  | start {r : Relay} (h : r.pending.slots.WellFormed) {e : PendingInterest} (hnew : e.retries = 0) :
      Effort r ({ r with pending := (r.pending.insert e).2 }.note (.began (r.pending.insert e).1))
  /-- An interest is handed to the routes. -/
  | attempt (r : Relay) (key : InterestKey) : Effort r (r.propagate key).2
  /-- An attempt that somebody took counts, if there were not too many yet. -/
  | count {r : Relay} {key : InterestKey} {e : PendingInterest} (he : r.pending.get? key = some e)
      (hfew : e.retries ≤ r.timeouts.maxRetransmissions) : Effort r
        { r with pending := r.pending.modify key fun e => { e with retries := e.retries + 1 } }

/-- What a relay does about its pending interests, one step after the other. -/
abbrev Efforts : Relay → Relay → Prop := Relation.ReflTransGen Effort

theorem Rests.efforts (h : Rests r s) : Efforts r s := .single (.rest h)

theorem Efforts.rests (h : Efforts r s) (h' : Rests s t) : Efforts r t := h.tail (.rest h')

theorem efforts_joinPending (r : Relay) (origin : FaceKey) (key : InterestKey) :
    Efforts r (r.joinPending origin key) := by
  have hjoined : Efforts r (r.joined origin key) := by
    refine (Rests.modifyPending r key fun e => ?_).efforts
    unfold PendingInterest.addWaiter
    split <;> exact ⟨rfl, rfl⟩
  unfold joinPending
  dsimp only
  split
  · exact hjoined.tail (.attempt _ key)
  · exact hjoined

theorem efforts_startPending (h : r.pending.slots.WellFormed) (origin : FaceKey)
    (interest : Packet) : Efforts r (r.startPending origin interest) := by
  have hput : Efforts r _ := .single (.start h (e := .fresh interest origin r.now) rfl)
  unfold startPending
  dsimp only
  split
  · exact hput.tail (.attempt _ _)
  · exact hput.rests (.of_still (log_still _ _ _))

theorem efforts_handleInterest (h : r.pending.slots.WellFormed) (origin : FaceKey)
    (interest : Packet) : Efforts r (r.handleInterest origin interest).2 := by
  obtain ⟨nonces, hnonces⟩ := recordNonce_eq r interest
  have hsame : Rests r { r with nonces } := .of_same rfl rfl rfl rfl
  have hrecorded := hsame.efforts
  unfold handleInterest
  split
  · rename_i s hs
    cases hnonces.symm.trans (congrArg Prod.snd hs)
    exact hrecorded.rests (.of_still (log_still _ _ _))
  · rename_i s hs
    cases hnonces.symm.trans (congrArg Prod.snd hs)
    split
    · exact hrecorded.rests (.answerFromStore _ origin interest _)
    · split
      · exact hrecorded.trans (efforts_joinPending _ origin _)
      · exact hrecorded.trans (efforts_startPending (r := { r with nonces }) h origin interest)

/-! ## The sweep -/

theorem Rests.unexpired (r : Relay) : Rests r r.unexpired := by
  have hdropped : Rests r { r with pending := (r.pending.expire r.isExpiredInterest).2 } := by
    refine of_hands (.of_same rfl rfl) rfl rfl fun key e he => ?_
    have hget := (Slots.get?_removeWhere r.pending.slots r.isExpiredInterest key).symm.trans he
    exact ⟨e, (Option.filter_eq_some_iff.1 hget).1, rfl, rfl⟩
  exact hdropped.trans (.of_still (logAll_still _ _))

theorem retransmit_eq (r : Relay) (key : InterestKey) : r.retransmit key =
    if (r.propagate key).1 = 0 then (r.propagate key).2
    else { (r.propagate key).2 with pending := (r.propagate key).2.pending.modify key fun e =>
      { e with retries := e.retries + 1 } } := by
  unfold retransmit
  split
  · rename_i hs
    rw [hs, if_pos rfl]
  · rename_i hpos hs
    rw [hs, if_neg hpos]

/-- Sending an interest again renews the time of its last attempt, and counts if anybody took it. -/
theorem get?_retransmit (r : Relay) (key k : InterestKey) : (r.retransmit key).pending.get? k =
    if k = key then (r.pending.get? k).map (·.retried r.now (r.propagate key).1)
    else r.pending.get? k := by
  have hsent := get?_propagate r key k
  rw [retransmit_eq]
  by_cases hzero : (r.propagate key).1 = 0
  · rw [if_pos hzero, hsent]
    simp [PendingInterest.retried, hzero]
  · rw [if_neg hzero]
    refine (Slots.get?_modify (r.propagate key).2.pending.slots key _ k).trans ?_
    refine (congrArg (fun found => if k = key then Option.map _ found else found) hsent).trans ?_
    by_cases hk : k = key
    · simp [hk, PendingInterest.retried, hzero, Function.comp_def]
    · simp [hk]

/-- Interests that were not sent again too often are sent again, each once. -/
theorem efforts_foldl_retransmit {keys : List InterestKey} (hnodup : keys.Nodup)
    (hfew : ∀ key ∈ keys, ∃ e, r.pending.get? key = some e ∧
      e.retries ≤ r.timeouts.maxRetransmissions) : Efforts r (keys.foldl retransmit r) := by
  induction keys generalizing r with
  | nil => exact .refl
  | cons key keys ih =>
    obtain ⟨hnot, hrest⟩ := List.nodup_cons.1 hnodup
    obtain ⟨e, he, hfirst⟩ := hfew key List.mem_cons_self
    have hstanding := standing_propagate r key
    have hsent : Efforts r (r.retransmit key) := by
      have hattempt : Efforts r (r.propagate key).2 := .single (.attempt r key)
      rcases retransmit_cases r key with heq | heq <;> rw [heq]
      · exact hattempt
      · have hget := (get?_propagate r key key).trans (if_pos rfl)
        rw [he] at hget
        refine hattempt.tail (.count hget ?_)
        rw [timeouts_of_standing hstanding]
        exact hfirst
    refine hsent.trans (ih hrest fun k hk => ?_)
    obtain ⟨old, hold, hlater⟩ := hfew k (List.mem_cons_of_mem key hk)
    have hne : k ≠ key := fun heq => hnot (heq ▸ hk)
    refine ⟨old, ?_, ?_⟩
    · rw [get?_retransmit, if_neg hne, hold]
    · rw [timeouts_of_standing (standing_retransmit r key)]
      exact hlater

theorem nodup_dueKeys (r : Relay) : r.dueKeys.Nodup :=
  r.pending.slots.nodup_keys.sublist (List.filter_sublist.map _)

theorem mem_dueKeys : key ∈ r.dueKeys ↔ ∃ e, r.pending.get? key = some e ∧ r.isDue e = true := by
  simp only [dueKeys, List.mem_map, List.mem_filter, Prod.exists, PendingTable.entries,
    Slots.mem_entries]
  constructor
  · rintro ⟨k, e, ⟨he, hdue⟩, rfl⟩
    exact ⟨e, he, hdue⟩
  · rintro ⟨e, he, hdue⟩
    exact ⟨key, e, ⟨he, hdue⟩, rfl⟩

/-- What has not expired was not sent again too often. -/
theorem few_of_unexpired {e : PendingInterest} (h : r.unexpired.pending.get? key = some e) :
    r.pending.get? key = some e ∧ e.retries ≤ r.timeouts.maxRetransmissions := by
  rw [get?_unexpired] at h
  obtain ⟨he, hkept⟩ := Option.filter_eq_some_iff.1 h
  exact ⟨he, (not_isExpiredInterest_iff.1 hkept).2⟩

theorem efforts_ageInterests (r : Relay) : Efforts r r.ageInterests := by
  have hunexpired := Rests.unexpired r
  refine hunexpired.efforts.trans (efforts_foldl_retransmit (nodup_dueKeys _) fun key hkey => ?_)
  obtain ⟨e, he, -⟩ := mem_dueKeys.1 hkey
  refine ⟨e, he, ?_⟩
  rw [hunexpired.timeouts]
  exact (few_of_unexpired he).2

/-! ## All work -/

/-- Whatever is done while the clock stands is done in efforts. -/
theorem efforts_of_work {down : Prop} (hr : r.Consistent) (h : Work down False r s) :
    Efforts r s := by
  have rest {t : Relay} (ht : Rests r t) : Efforts r t := ht.efforts
  cases h with
  | interest _ _ => exact efforts_handleInterest hr.pending _ _
  | content _ _ => exact rest (.handleContent r _ _)
  | @publish _ _ packet _ _ hs =>
    have hstored := Rests.store r packet { pinned := true }
    rw [hs] at hstored
    exact rest (hstored.trans (.servePending _ packet))
  | @refuse _ _ packet _ _ hs =>
    have hstored := Rests.store r packet { pinned := true }
    rw [hs] at hstored
    exact rest hstored
  | removeFace => exact rest (.removeFace r _)
  | ageContents => exact rest (.ageContents r)
  | ageInterests => exact efforts_ageInterests r
  | clearToSend => exact rest (.of_still (clearToSend_still r _))
  | armAgeing => exact rest (.armAgeing r)
  | stop => exact rest (.stop r)
  | clock h => exact h.elim
  | expire hexpire =>
    obtain ⟨timer, -, htimer⟩ := Option.map_eq_some_iff.1 hexpire
    cases htimer
    exact rest (.of_same rfl rfl rfl rfl)
  | log | fragment | removeContent | setCacheLimit | newFace | flagFace | newApplicationFace | hear
    | newInterface | pace | newRoute | removeRoute | nextNonce | disarm =>
    exact rest (.of_same rfl rfl rfl rfl)

theorem efforts_of_works {down : Prop} (hr : r.Consistent) (h : Works down False r s) :
    Efforts r s := by
  induction h with
  | refl => exact .refl
  | tail hworks hwork ih => exact ih.trans (efforts_of_work (hr.moves (Works.moves hworks)) hwork)

end Relay

end NameRelay
