-- SUMMARY: A sweep removes what has expired and what refers to it, and nothing else.
import NameRelay.Proofs.Relay.Routed

/-!
# Expiry

A sweep goes over contents, interests and faces in turn. Faces are torn down last, which takes them
out of the pending interests and the routes; before that interests are sent again, and what this
puts into queues and counters decides nothing. `Swept` says what is there after a sweep in terms of
what was there before, and every reachable relay is swept when the timer goes off.
-/

namespace NameRelay

/-- A content after a sweep: stale if it was, or if its period has passed since it came in. -/
def StoredContent.aged (e : StoredContent) (now : Instant) : StoredContent :=
  let passed := e.packet.details.freshness.any fun period =>
    saturatingMul period.toNat Instant.microsPerMilli ≤ now.elapsed e.inserted
  { e with flags := { e.flags with stale := e.flags.stale || passed } }

/-- A pending interest without what sending it again changes. -/
def PendingInterest.untimed (e : PendingInterest) : PendingInterest :=
  { e with retries := 0, lastAttempt := ⟨0⟩ }

/-- The waiters other than some faces. -/
def PendingInterest.withoutFaces (e : PendingInterest) (gone : FaceKey → Bool) : PendingInterest :=
  { e with waiters := e.waiters.filter fun w => !gone w.face }

/-- Whether a route leads to one of some faces. -/
def Destination.isAmong (gone : FaceKey → Bool) : Destination → Bool
  | .face key => gone key
  | .tap => false

namespace Relay

variable {r s : Relay}

-- ---------------------------------------------------------------------------
-- Contents
-- ---------------------------------------------------------------------------

theorem mark_eq_aged (e : StoredContent) (now : Instant) :
    (if e.isOverdue now then { e with flags := { e.flags with stale := true } } else e) =
      e.aged now := by
  have haged : e.aged now =
      { e with flags := { e.flags with stale := e.flags.stale || e.isOverdue now } } := rfl
  rw [haged]
  cases e.isOverdue now <;> simp

theorem get?_markStale (r : Relay) (key : ContentKey) :
    r.markStale.contents.get? key = (r.contents.get? key).map (·.aged r.now) := by
  refine (Slots.get?_mapEntries r.contents.slots _ key).trans ?_
  simp only [mark_eq_aged]
  rfl

theorem get?_ageContents (r : Relay) (key : ContentKey) : r.ageContents.contents.get? key =
    ((r.contents.get? key).filter fun e => !r.isExpiredContent e).map (·.aged r.now) := by
  let kept : Relay := { r with contents := (r.contents.expire r.isExpiredContent).2 }
  let records := (r.contents.expire r.isExpiredContent).1.map timedOutContent
  refine (get?_markStale (kept.logAll records) key).trans ?_
  rw [contents_of_tables (tables_logAll kept records), now_of_standing (standing_logAll kept records)]
  exact congrArg (Option.map _) (Slots.get?_removeWhere r.contents.slots r.isExpiredContent key)

-- ---------------------------------------------------------------------------
-- Interests
-- ---------------------------------------------------------------------------

/-- The relay after the expired interests went, and before the others are sent again. -/
def unexpired (r : Relay) : Relay :=
  ({ r with pending := (r.pending.expire r.isExpiredInterest).2 } : Relay).logAll
    ((r.pending.expire r.isExpiredInterest).1.map fun e => timedOutInterest e.2)

/-- The interests that it is time to send again. -/
def dueKeys (r : Relay) : List InterestKey :=
  (r.pending.entries.filter fun e => r.isDue e.2).map (·.1)

theorem ageInterests_eq (r : Relay) :
    r.ageInterests = r.unexpired.dueKeys.foldl retransmit r.unexpired := rfl

theorem get?_unexpired (r : Relay) (key : InterestKey) : r.unexpired.pending.get? key =
    (r.pending.get? key).filter fun e => !r.isExpiredInterest e := by
  rw [unexpired, pending_of_tables (tables_logAll _ _)]
  exact Slots.get?_removeWhere r.pending.slots r.isExpiredInterest key

theorem contents_retransmit (r : Relay) (key : InterestKey) :
    (r.retransmit key).contents = r.contents := by
  have hsent := contents_of_tables (tables_propagate r key)
  rcases retransmit_cases r key with heq | heq <;> rw [heq] <;> exact hsent

/-- Sending an interest again changes its counter and the time of the last attempt. -/
theorem untimed_retransmit (r : Relay) (key : InterestKey) :
    (r.retransmit key).pending.slots.mapEntries PendingInterest.untimed =
      r.pending.slots.mapEntries PendingInterest.untimed := by
  have hsent : (r.propagate key).2.pending.slots.mapEntries PendingInterest.untimed =
      r.pending.slots.mapEntries PendingInterest.untimed := by
    rw [pending_of_tables (tables_propagate r key)]
    exact Slots.mapEntries_modify fun _ _ => rfl
  rcases retransmit_cases r key with heq | heq <;> rw [heq]
  · exact hsent
  · refine Eq.trans ?_ hsent
    exact Slots.mapEntries_modify fun _ _ => rfl

theorem contents_ageInterests (r : Relay) : r.ageInterests.contents = r.contents := by
  have hsent : r.ageInterests.contents = r.unexpired.contents :=
    List.foldlRecOn (motive := fun s : Relay => s.contents = r.unexpired.contents)
      r.unexpired.dueKeys retransmit rfl fun s hs key _ => (contents_retransmit s key).trans hs
  exact hsent.trans (contents_of_tables (tables_logAll _ _) :)

/-- Expired interests go. The others stay, and are sent again maybe. -/
theorem untimed_ageInterests (r : Relay) (key : InterestKey) :
    (r.ageInterests.pending.get? key).map PendingInterest.untimed =
      ((r.pending.get? key).filter fun e => !r.isExpiredInterest e).map PendingInterest.untimed := by
  have hsent : r.ageInterests.pending.slots.mapEntries PendingInterest.untimed =
      r.unexpired.pending.slots.mapEntries PendingInterest.untimed :=
    List.foldlRecOn (motive := fun s : Relay => s.pending.slots.mapEntries PendingInterest.untimed =
      r.unexpired.pending.slots.mapEntries PendingInterest.untimed) r.unexpired.dueKeys retransmit rfl
      fun s hs key _ => (untimed_retransmit s key).trans hs
  have hget := congrArg (·.get? key) hsent
  simp only [Slots.get?_mapEntries] at hget
  rw [← get?_unexpired]
  exact hget

-- ---------------------------------------------------------------------------
-- Faces
-- ---------------------------------------------------------------------------

/-- Tears down some faces, one after the other. -/
def removeFaces (r : Relay) (keys : List FaceKey) : Relay :=
  keys.foldl (fun r key => (r.removeFace key).2) r

theorem face?_removeFaces (r : Relay) (keys : List FaceKey) (key : FaceKey) :
    (r.removeFaces keys).face? key = if key ∈ keys then none else r.face? key := by
  induction keys generalizing r with
  | nil => rfl
  | cons first keys ih =>
    refine (ih _).trans ?_
    rw [face?_removeFace]
    by_cases hfirst : key = first <;> simp [hfirst]

theorem contents_removeFace (r : Relay) (key : FaceKey) :
    (r.removeFace key).2.contents = r.contents := by
  unfold removeFace
  split <;> rfl

theorem contents_removeFaces (r : Relay) (keys : List FaceKey) :
    (r.removeFaces keys).contents = r.contents :=
  List.foldlRecOn (motive := fun s : Relay => s.contents = r.contents) keys _ rfl
    fun s hs key _ => (contents_removeFace s key).trans hs

theorem remove_of_contains {key : FaceKey} (h : r.faces.contains key = true) :
    ∃ f faces, r.faces.remove key = (some f, faces) := by
  obtain ⟨f, hf⟩ := Slots.contains_iff.1 h
  exact ⟨f, _, Prod.ext ((Slots.remove_fst r.faces key).trans hf) rfl⟩

/-- A face that is torn down takes with it the routes to it. -/
theorem routes_removeFace {key : FaceKey} (h : r.faces.contains key = true) :
    (r.removeFace key).2.routes.routes =
      r.routes.routes.filter fun route => route.destination != .face key := by
  obtain ⟨f, faces, hremove⟩ := remove_of_contains h
  rw [removeFace, hremove]
  rfl

/-- A face that is torn down waits no longer, and interests that only it waited with go. -/
theorem get?_removeFace {key : FaceKey} (h : r.faces.contains key = true) (k : InterestKey) :
    (r.removeFace key).2.pending.get? k =
      ((r.pending.get? k).map (·.removeWaiter key)).filter fun e => !e.waiters.isEmpty := by
  obtain ⟨f, faces, hremove⟩ := remove_of_contains h
  rw [removeFace, hremove]
  exact Slots.get?_drain r.pending.slots (·.removeWaiter key) (·.waiters.isEmpty) k

/-- When the first of some faces is torn down the others are still there. -/
theorem contains_others {first : FaceKey} {keys : List FaceKey} (hnot : first ∉ keys)
    (h : ∀ key ∈ first :: keys, r.faces.contains key = true) :
    ∀ key ∈ keys, (r.removeFace first).2.faces.contains key = true := by
  intro key hkey
  have hne : key ≠ first := fun heq => hnot (heq ▸ hkey)
  obtain ⟨f, hf⟩ := Slots.contains_iff.1 (h key (List.mem_cons_of_mem _ hkey))
  exact Slots.contains_iff.2 ⟨f, (face?_removeFace r first key).trans ((if_neg hne).trans hf)⟩

/-- Faces that are torn down take with them the routes to them. -/
theorem routes_removeFaces {keys : List FaceKey} (hnodup : keys.Nodup)
    (h : ∀ key ∈ keys, r.faces.contains key = true) :
    (r.removeFaces keys).routes.routes =
      r.routes.routes.filter fun route => !route.destination.isAmong (keys.contains ·) := by
  induction keys generalizing r with
  | nil =>
    refine (List.filter_eq_self.2 fun route _ => ?_).symm
    cases route.destination <;> rfl
  | cons first keys ih =>
    obtain ⟨hnot, hrest⟩ := List.nodup_cons.1 hnodup
    have hstill := contains_others hnot h
    refine (ih hrest hstill).trans ?_
    rw [routes_removeFace (h first List.mem_cons_self), List.filter_filter]
    refine List.filter_congr fun route _ => ?_
    cases route.destination with
    | tap => rfl
    | face key =>
      by_cases hk : key = first <;> simp [Destination.isAmong, hk]

/-- Faces that are torn down wait no longer, and interests that only they waited with go. -/
theorem get?_removeFaces (hr : r.Consistent) {keys : List FaceKey} (hnodup : keys.Nodup)
    (h : ∀ key ∈ keys, r.faces.contains key = true) (k : InterestKey) :
    (r.removeFaces keys).pending.get? k =
      ((r.pending.get? k).map (·.withoutFaces (keys.contains ·))).filter
        fun e => !e.waiters.isEmpty := by
  induction keys generalizing r with
  | nil =>
    change r.pending.get? k = _
    cases hget : r.pending.get? k with
    | none => rfl
    | some e =>
      have hwaited := hr.waited k e hget
      simp [PendingInterest.withoutFaces, Option.filter, hwaited]
  | cons first keys ih =>
    obtain ⟨hnot, hrest⟩ := List.nodup_cons.1 hnodup
    have hstill := contains_others hnot h
    refine (ih (hr.removeFace first) hrest hstill).trans ?_
    rw [get?_removeFace (h first List.mem_cons_self)]
    cases r.pending.get? k with
    | none => rfl
    | some e =>
      have hboth : (e.removeWaiter first).withoutFaces (keys.contains ·) =
          e.withoutFaces ((first :: keys).contains ·) := by
        simp only [PendingInterest.withoutFaces, PendingInterest.removeWaiter, List.filter_filter]
        refine congrArg (fun waiters => { e with waiters }) (List.filter_congr fun w _ => ?_)
        by_cases hw : w.face = first <;> simp [hw]
      rw [Option.map_some, Option.map_some, ← hboth]
      by_cases hempty : (e.removeWaiter first).waiters = []
      · simp [Option.filter, PendingInterest.withoutFaces, hempty]
      · simp [Option.filter, hempty]

-- ---------------------------------------------------------------------------
-- The sweep
-- ---------------------------------------------------------------------------

/-- The faces that a sweep tears down. -/
def idleFaces (r : Relay) : List FaceKey := (r.faces.entries.filter fun e => r.isIdle e.2).map (·.1)

theorem nodup_idleFaces (r : Relay) : r.idleFaces.Nodup :=
  r.faces.nodup_keys.sublist (List.filter_sublist.map _)

theorem mem_idleFaces {key : FaceKey} :
    key ∈ r.idleFaces ↔ ∃ f, r.face? key = some f ∧ r.isIdle f = true := by
  simp only [idleFaces, List.mem_map, List.mem_filter, Prod.exists, Slots.mem_entries]
  constructor
  · rintro ⟨k, f, ⟨hf, hidle⟩, rfl⟩
    exact ⟨f, hf, hidle⟩
  · rintro ⟨f, hf, hidle⟩
    exact ⟨key, f, ⟨hf, hidle⟩, rfl⟩

theorem contains_of_mem_idleFaces {key : FaceKey} (h : key ∈ r.idleFaces) :
    r.faces.contains key = true := by
  obtain ⟨f, hf, -⟩ := mem_idleFaces.1 h
  exact Slots.contains_iff.2 ⟨f, hf⟩

/-- Whether a face of `r` is there no longer in `s`. -/
def gone (r s : Relay) (key : FaceKey) : Bool := r.faces.contains key && !s.faces.contains key

/-- What is there after a sweep of `r`. Time that has not come yet has not passed: it counts as none. -/
structure Swept (r s : Relay) : Prop where
  /-- A content stays if it is pinned or was used lately, and has aged. -/
  contents : ∀ key e, s.contents.get? key = some e ↔ ∃ old, r.contents.get? key = some old ∧
    (old.flags.pinned = true ∨ r.now.elapsed old.lastUsed < r.timeouts.content) ∧
    e = old.aged r.now
  /-- A face stays if it is pinned or was heard of lately. -/
  faces : ∀ key, s.faces.contains key = true ↔ ∃ f, r.face? key = some f ∧
    (f.flags.pinned = true ∨ r.now.elapsed f.lastUsed < r.timeouts.face)
  /-- It is the same face but for what waits to be sent. -/
  unmarked : ∀ key f, s.face? key = some f →
    ∃ old, r.face? key = some old ∧ f.unmarked = old.unmarked
  /-- The routes to faces that are gone have gone, and the others stand as they did. -/
  routes : s.routes.routes = r.routes.routes.filter fun route =>
    !route.destination.isAmong (r.gone s)
  /-- An interest stays if it was asked for lately, was not sent again too often, and a face that
      waits is still there. -/
  pending : ∀ key, (∃ e, s.pending.get? key = some e) ↔ ∃ old, r.pending.get? key = some old ∧
    r.now.elapsed old.lastUsed < r.timeouts.interest ∧
    old.retries ≤ r.timeouts.maxRetransmissions ∧
    ∃ face ∈ old.faces, s.faces.contains face = true
  /-- The faces that are gone do not wait any more. Nothing else has changed of an interest, but for
      what sending it again changes. -/
  waiters : ∀ key e, s.pending.get? key = some e → ∃ old, r.pending.get? key = some old ∧
    e.untimed = (old.withoutFaces (r.gone s)).untimed

/-- The relay after the first two parts of a sweep stands as before. -/
theorem standing_beforeFaces (r : Relay) : r.ageContents.ageInterests.standing = r.standing :=
  (standing_ageInterests _).trans (standing_ageContents r)

theorem isIdle_of_unmarked {f g : Face} (hs : s.standing = r.standing)
    (h : f.unmarked = g.unmarked) : s.isIdle f = r.isIdle g := by
  have hpinned : f.flags.pinned = g.flags.pinned := (congrArg (fun f : Face => f.flags.pinned) h :)
  have hused : f.lastUsed = g.lastUsed := (congrArg Face.lastUsed h :)
  rw [isIdle, isIdle, hpinned, hused, timeouts_of_standing hs, now_of_standing hs]

/-- The same faces are idle before and after packets were handled. -/
theorem idleFaces_of_standing (hs : s.standing = r.standing) (key : FaceKey) :
    key ∈ s.idleFaces ↔ key ∈ r.idleFaces := by
  have hfaces := congrArg (·.get? key) (faces_of_standing hs)
  simp only [Slots.get?_mapEntries] at hfaces
  rw [mem_idleFaces, mem_idleFaces]
  constructor
  · rintro ⟨f, hf, hidle⟩
    have hf' : s.faces.get? key = some f := hf
    rw [hf'] at hfaces
    obtain ⟨g, hg, hsame⟩ := Option.map_eq_some_iff.1 hfaces.symm
    exact ⟨g, hg, (isIdle_of_unmarked hs hsame.symm).symm.trans hidle⟩
  · rintro ⟨g, hg, hidle⟩
    have hg' : r.faces.get? key = some g := hg
    rw [hg'] at hfaces
    obtain ⟨f, hf, hsame⟩ := Option.map_eq_some_iff.1 hfaces
    exact ⟨f, hf, (isIdle_of_unmarked hs hsame).trans hidle⟩

theorem age_eq (r : Relay) : r.age =
    r.ageContents.ageInterests.removeFaces r.ageContents.ageInterests.idleFaces := rfl

theorem face?_age (r : Relay) (key : FaceKey) : (r.age.face? key).map Face.unmarked =
    if key ∈ r.idleFaces then none else (r.face? key).map Face.unmarked := by
  have hs := standing_beforeFaces r
  have hsame := congrArg (·.get? key) (faces_of_standing hs)
  simp only [Slots.get?_mapEntries] at hsame
  rw [age_eq, face?_removeFaces]
  simp only [idleFaces_of_standing hs]
  split
  · rfl
  · exact hsame

theorem contains_age (r : Relay) (key : FaceKey) :
    r.age.faces.contains key = true ↔ key ∉ r.idleFaces ∧ r.faces.contains key = true := by
  have hface := congrArg Option.isSome (face?_age r key)
  rw [Option.isSome_map] at hface
  change (r.age.face? key).isSome = true ↔ _ ∧ (r.face? key).isSome = true
  rw [hface]
  by_cases hk : key ∈ r.idleFaces <;> simp [hk]

/-- The faces that are gone after a sweep are those that were idle. -/
theorem gone_age (r : Relay) : r.gone r.age = (r.idleFaces.contains ·) := by
  funext key
  rw [Bool.eq_iff_iff, gone, Bool.and_eq_true, Bool.not_eq_true', ← Bool.not_eq_true, contains_age,
    List.contains_iff_mem]
  constructor
  · rintro ⟨hthere, hnot⟩
    by_contra hstays
    exact hnot ⟨hstays, hthere⟩
  · intro hidle
    exact ⟨contains_of_mem_idleFaces hidle, fun hstays => hstays.1 hidle⟩

theorem contains_idleFaces_of_standing (hs : s.standing = r.standing) :
    (s.idleFaces.contains ·) = (r.idleFaces.contains ·) := by
  funext key
  rw [Bool.eq_iff_iff, List.contains_iff_mem, List.contains_iff_mem, idleFaces_of_standing hs]

theorem routes_age (r : Relay) : r.age.routes.routes =
    r.routes.routes.filter fun route => !route.destination.isAmong (r.gone r.age) := by
  have hs := standing_beforeFaces r
  rw [gone_age, age_eq, routes_removeFaces (nodup_idleFaces _) fun _ => contains_of_mem_idleFaces,
    contains_idleFaces_of_standing hs, routes_of_standing hs]

theorem contents_age (r : Relay) (key : ContentKey) : r.age.contents.get? key =
    ((r.contents.get? key).filter fun e => !r.isExpiredContent e).map (·.aged r.now) := by
  rw [← get?_ageContents, age_eq, contents_removeFaces, contents_ageInterests]

/-- Counters and times play no part in what becomes of the waiters. -/
theorem map_untimed_withoutFaces (gone : FaceKey → Bool) (found : Option PendingInterest) :
    ((found.map (·.withoutFaces gone)).filter fun e => !e.waiters.isEmpty).map
        PendingInterest.untimed =
      ((found.map PendingInterest.untimed).map (·.withoutFaces gone)).filter
        fun e => !e.waiters.isEmpty := by
  cases found with
  | none => rfl
  | some e =>
    have hsame : (e.untimed.withoutFaces gone).waiters = (e.withoutFaces gone).waiters := rfl
    simp only [Option.map_some, Option.filter_some, hsame]
    cases (e.withoutFaces gone).waiters.isEmpty <;> rfl

theorem isExpiredInterest_of_standing (hs : s.standing = r.standing) (e : PendingInterest) :
    s.isExpiredInterest e = r.isExpiredInterest e := by
  rw [isExpiredInterest, isExpiredInterest, timeouts_of_standing hs, now_of_standing hs]

/-- What is left of a pending interest, but for what sending it again changes. -/
theorem pending_age (hr : r.Consistent) (key : InterestKey) :
    (r.age.pending.get? key).map PendingInterest.untimed =
      ((((r.pending.get? key).filter fun e => !r.isExpiredInterest e).map
        (·.withoutFaces (r.gone r.age))).filter fun e => !e.waiters.isEmpty).map
          PendingInterest.untimed := by
  have hsent := untimed_ageInterests r.ageContents key
  simp only [isExpiredInterest_of_standing (standing_ageContents r), pending_ageContents] at hsent
  have hleft := get?_removeFaces (r := r.ageContents.ageInterests) hr.ageContents.ageInterests
    (nodup_idleFaces _) (fun _ => contains_of_mem_idleFaces) key
  rw [contains_idleFaces_of_standing (standing_beforeFaces r), ← age_eq, ← gone_age] at hleft
  rw [hleft, map_untimed_withoutFaces, map_untimed_withoutFaces, hsent]

theorem not_isExpiredContent_iff {e : StoredContent} : (!r.isExpiredContent e) = true ↔
    e.flags.pinned = true ∨ r.now.elapsed e.lastUsed < r.timeouts.content := by
  simp [isExpiredContent, ← Bool.not_eq_true]

theorem not_isIdle_iff {f : Face} : ¬r.isIdle f = true ↔
    f.flags.pinned = true ∨ r.now.elapsed f.lastUsed < r.timeouts.face := by
  simp [isIdle, ← Bool.not_eq_true, ← or_iff_not_imp_left]

theorem not_isExpiredInterest_iff {e : PendingInterest} : (!r.isExpiredInterest e) = true ↔
    r.now.elapsed e.lastUsed < r.timeouts.interest ∧
      e.retries ≤ r.timeouts.maxRetransmissions := by
  simp [isExpiredInterest]

/-- Somebody still waits after a sweep if one of those who waited is still there. -/
theorem isWaited_age_iff (hr : r.Consistent) {key : InterestKey} {e : PendingInterest}
    (he : r.pending.get? key = some e) :
    (!(e.withoutFaces (r.gone r.age)).waiters.isEmpty) = true ↔
      ∃ face ∈ e.faces, r.age.faces.contains face = true := by
  rw [Bool.not_eq_true', List.isEmpty_eq_false_iff_exists_mem]
  constructor
  · rintro ⟨w, hw⟩
    obtain ⟨hmem, hstays⟩ := List.mem_filter.1 hw
    have hface : w.face ∈ e.faces := List.mem_map_of_mem hmem
    have hthere := hr.known key e he w.face hface
    refine ⟨w.face, hface, ?_⟩
    simpa [gone, hthere] using hstays
  · rintro ⟨face, hface, hstays⟩
    obtain ⟨w, hmem, rfl⟩ := List.mem_map.1 hface
    exact ⟨w, List.mem_filter.2 ⟨hmem, by simp [gone, hstays]⟩⟩

theorem swept_age (hr : r.Consistent) : r.Swept r.age where
  contents key e := by
    rw [contents_age, Option.map_eq_some_iff]
    simp only [Option.filter_eq_some_iff, not_isExpiredContent_iff]
    constructor
    · rintro ⟨old, ⟨hold, hkept⟩, rfl⟩
      exact ⟨old, hold, hkept, rfl⟩
    · rintro ⟨old, hold, hkept, rfl⟩
      exact ⟨old, ⟨hold, hkept⟩, rfl⟩
  faces key := by
    rw [contains_age, mem_idleFaces]
    constructor
    · rintro ⟨hkept, hthere⟩
      obtain ⟨f, hf⟩ := Slots.contains_iff.1 hthere
      exact ⟨f, hf, not_isIdle_iff.1 fun hidle => hkept ⟨f, hf, hidle⟩⟩
    · rintro ⟨f, hf, hkept⟩
      refine ⟨?_, Slots.contains_iff.2 ⟨f, hf⟩⟩
      rintro ⟨g, hg, hidle⟩
      cases hf.symm.trans hg
      exact not_isIdle_iff.2 hkept hidle
  unmarked key f hf := by
    have hface := face?_age r key
    rw [hf] at hface
    split at hface
    · cases hface
    · obtain ⟨old, hold, hsame⟩ := Option.map_eq_some_iff.1 hface.symm
      exact ⟨old, hold, hsame.symm⟩
  routes := routes_age r
  pending key := by
    have hleft := pending_age hr key
    constructor
    · rintro ⟨e, he⟩
      rw [he, Option.map_some, eq_comm, Option.map_eq_some_iff] at hleft
      obtain ⟨mid, hmid, -⟩ := hleft
      obtain ⟨hmapped, hwaited⟩ := Option.filter_eq_some_iff.1 hmid
      obtain ⟨old, hold, rfl⟩ := Option.map_eq_some_iff.1 hmapped
      obtain ⟨hthere, hkept⟩ := Option.filter_eq_some_iff.1 hold
      obtain ⟨hlate, hfew⟩ := not_isExpiredInterest_iff.1 hkept
      exact ⟨old, hthere, hlate, hfew, (isWaited_age_iff hr hthere).1 hwaited⟩
    · rintro ⟨old, hold, hlate, hfew, hwaited⟩
      have hkept := not_isExpiredInterest_iff.2 ⟨hlate, hfew⟩
      have hstill := (isWaited_age_iff hr hold).2 hwaited
      simp only [hold, Option.filter_some, hkept, if_true, Option.map_some, hstill] at hleft
      obtain ⟨e, he, -⟩ := Option.map_eq_some_iff.1 hleft
      exact ⟨e, he⟩
  waiters key e he := by
    have hleft := pending_age hr key
    rw [he, Option.map_some, eq_comm, Option.map_eq_some_iff] at hleft
    obtain ⟨mid, hmid, hsame⟩ := hleft
    obtain ⟨hmapped, -⟩ := Option.filter_eq_some_iff.1 hmid
    obtain ⟨old, hold, rfl⟩ := Option.map_eq_some_iff.1 hmapped
    exact ⟨old, (Option.filter_eq_some_iff.1 hold).1, hsame.symm⟩

/-- What is there after a sweep can be read off the tables. -/
theorem Swept.of_tables {t : Relay} (h : r.Swept s) (ht : t.tables = s.tables) : r.Swept t := by
  have hthere := contains_of_tables ht
  have hgone : r.gone t = r.gone s := by
    funext key
    rw [gone, gone, hthere]
  refine ⟨?_, fun key => ?_, fun key f hf => ?_, ?_, fun key => ?_, ?_⟩
  · rw [contents_of_tables ht]
    exact h.contents
  · rw [hthere]
    exact h.faces key
  · have hface := face?_of_tables ht key
    rw [hf] at hface
    obtain ⟨g, hg, hsame⟩ := Option.map_eq_some_iff.1 hface.symm
    obtain ⟨old, hold, hsame'⟩ := h.unmarked key g hg
    exact ⟨old, hold, hsame.symm.trans hsame'⟩
  · rw [hgone, routes_of_standing (standing_of_tables ht)]
    exact h.routes
  · simp only [pending_of_tables ht, hthere]
    exact h.pending key
  · rw [pending_of_tables ht, hgone]
    exact h.waiters

/-- Arming the next sweep undoes nothing of the last one. -/
theorem Swept.armAgeing (h : r.Swept s) : r.Swept s.armAgeing.2 := by
  obtain ⟨timer, htables⟩ := tables_armAgeing s
  have hkept : r.Swept { s with ageingTimer := timer } :=
    ⟨h.contents, h.faces, h.unmarked, h.routes, h.pending, h.waiters⟩
  exact hkept.of_tables htables

/-- When the timer for it goes off every reachable relay is swept, whatever its clock shows: what has
    expired is gone, with all that refers to it, and everything else is there. -/
theorem swept_onTimer_ageing (h : Reachable r) : r.Swept (r.onTimer .ageing) := by
  have hdisarmed : ({ r with ageingTimer := none } : Relay).Consistent := h.consistent.move (.disarm r)
  have hage := swept_age hdisarmed
  have hswept : r.Swept ({ r with ageingTimer := none } : Relay).age :=
    ⟨hage.contents, hage.faces, hage.unmarked, hage.routes, hage.pending, hage.waiters⟩
  rcases onTimer_ageing_cases r rfl with heq | ⟨text, heq⟩ <;> rw [heq]
  · exact hswept.armAgeing
  · exact hswept.armAgeing.of_tables (tables_of_still (log_still _ _ _))

/-- Two readers ask for the same, the second of them 130 seconds after the first and 30 before the
    sweep. The next hop is pinned, and there is a route to a face that was never heard of. -/
def lateReaderCalls : List Call :=
  [.addInterface (.path "own") 0 {}, .setPacing 0 (some 1000),
    .addFace 0 (.path "next") { pinned := true }, .addFace 0 (.path "silent") {},
    .addRoute ⟨.ndn, [[97]], none, .none⟩ .ndn (.face ⟨0, 0⟩),
    .addRoute ⟨.ndn, [[98]], none, .none⟩ .ndn (.face ⟨1, 0⟩),
    .receive 0 [5, 11, 7, 3, 8, 1, 97, 10, 4, 0, 0, 0, 1] (.path "early"), .clock ⟨130000000⟩,
    .receive 0 [5, 11, 7, 3, 8, 1, 97, 10, 4, 0, 0, 0, 2] (.path "late"), .clock ⟨160000000⟩]

/-- The sweep leaves the second reader and the next hop, one of the two routes, and the interest, with
    which the second reader waits. -/
theorem second_reader_stays :
    let r := (Relay.fresh (Host.fresh ⟨0⟩ (fun _ => none) fun _ => true)).performAll lateReaderCalls
    let s := r.onTimer .ageing
    Reachable r ∧ r.Swept s ∧
      r.faces.keys = [⟨0, 0⟩, ⟨1, 0⟩, ⟨2, 0⟩, ⟨3, 0⟩] ∧ s.faces.keys = [⟨0, 0⟩, ⟨3, 0⟩] ∧
      s.routes.routes.map (·.destination) = [.face ⟨0, 0⟩] ∧
      r.pending.entries.map (·.2.faces) = [[⟨2, 0⟩, ⟨3, 0⟩]] ∧
      s.pending.entries.map (·.2.faces) = [[⟨3, 0⟩]] := by
  have hreachable := (Reachable.fresh ⟨0⟩ (fun _ => none) fun _ => true).performAll lateReaderCalls
  exact ⟨hreachable, swept_onTimer_ageing hreachable, by decide +kernel, by decide +kernel,
    by decide +kernel, by decide +kernel, by decide +kernel⟩

end Relay

end NameRelay
