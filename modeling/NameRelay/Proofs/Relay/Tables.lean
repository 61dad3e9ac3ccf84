-- SUMMARY: What serving and handing over leave alone: the tables, and who is a face.
import NameRelay.Proofs.Relay.Transmission
import NameRelay.Relay.Lifecycle

/-!
# Tables under deliveries

Serving a content and handing an interest over end in transmissions, upcalls and deeds, and mark
faces as served for a round. `Relay.tables` forgets all of that. Each operation on packets is
described by the change of the tables that it makes: a round of deliveries removes the pending
interests it satisfies, propagation renews the time of the last attempt, and nothing else moves.
-/

namespace NameRelay

/-- The face without its outbox and its mark of the current round. -/
def Face.unmarked (f : Face) : Face :=
  { f.atRest with flags := { f.flags with served := false } }

/-- The table without the interests under some keys. -/
def PendingTable.removeEach (t : PendingTable) (keys : List InterestKey) : PendingTable :=
  keys.foldl PendingTable.remove t

theorem PendingTable.get?_removeEach (t : PendingTable) (keys : List InterestKey)
    (key : InterestKey) : (t.removeEach keys).get? key = if key ∈ keys then none else t.get? key := by
  induction keys generalizing t with
  | nil => simp [removeEach]
  | cons k keys ih =>
    have hstep : (t.remove k).get? key = if key = k then none else t.get? key :=
      Slots.get?_remove t.slots k key
    rw [removeEach, List.foldl_cons]
    refine (ih (t.remove k)).trans ?_
    rw [hstep]
    by_cases hk : key = k <;> simp [hk]

theorem PendingTable.wellFormed_removeEach {t : PendingTable} (h : t.slots.WellFormed)
    (keys : List InterestKey) : (t.removeEach keys).slots.WellFormed := by
  induction keys generalizing t with
  | nil => exact h
  | cons k keys ih => exact ih (Slots.wellFormed_remove h k)

@[simp] theorem PendingInterest.packet_addWaiter (e : PendingInterest) (face : FaceKey)
    (now : Instant) : (e.addWaiter face now).packet = e.packet := by
  unfold addWaiter
  split <;> rfl

@[simp] theorem PendingInterest.origin_addWaiter (e : PendingInterest) (face : FaceKey)
    (now : Instant) : (e.addWaiter face now).origin = e.origin := by
  unfold addWaiter
  split <;> rfl

theorem Slots.mapEntries_mapEntries {α : Type} (s : Slots α) (f g : α → α) :
    (s.mapEntries f).mapEntries g = s.mapEntries fun a => g (f a) := by
  simp only [mapEntries, List.map_map, Slots.mk.injEq, and_true]
  apply List.map_congr_left
  intro slot _
  simp [Function.comp_def]

namespace Relay

/-- The relay without outboxes, rings, timers, effects, marks and history. -/
def tables (r : Relay) : Relay :=
  { r with
    host := { r.host.atRest with effects := [] }
    faces := r.faces.mapEntries Face.unmarked
    interfaces := r.interfaces.map Interface.atRest
    history := [] }

theorem tables_still (r : Relay) : r.still.tables = r.tables := by
  have hhost : ({ r.host.atRest.atRest with effects := [] } : Host) =
      { r.host.atRest with effects := [] } := rfl
  have hfaces : (r.faces.mapEntries Face.atRest).mapEntries Face.unmarked =
      r.faces.mapEntries Face.unmarked := by
    rw [Slots.mapEntries_mapEntries]
    rfl
  have hinterfaces : (r.interfaces.map Interface.atRest).map Interface.atRest =
      r.interfaces.map Interface.atRest := by
    rw [List.map_map]
    rfl
  simp only [tables, still, hhost, hfaces, hinterfaces]

theorem tables_of_still {r s : Relay} (h : s.still = r.still) : s.tables = r.tables := by
  rw [← tables_still s, h, tables_still]

/-- A change of the pending table is the same change of the tables. -/
theorem tables_withPending {r s : Relay} (h : s.tables = r.tables) (p : PendingTable) :
    ({ s with pending := p } : Relay).tables = ({ r with pending := p } : Relay).tables :=
  (congrArg (fun t : Relay => { t with pending := p }) h :)

@[simp] theorem tables_logAll (r : Relay) (records : List LogRecord) :
    (r.logAll records).tables = r.tables := tables_of_still (logAll_still r records)

theorem tables_enqueue (r : Relay) (key : FaceKey) (suite : Suite) (bytes : Bytes) :
    (r.enqueue key suite bytes).2.tables = r.tables :=
  tables_of_still (enqueue_still r key suite bytes)

/-- Changing what the tables do not show of a face changes no table. -/
theorem tables_modifyFace (r : Relay) (key : FaceKey) (g : Face → Face)
    (h : ∀ f, r.face? key = some f → (g f).unmarked = f.unmarked) :
    (r.modifyFace key g).tables = r.tables := by
  have hfaces : (r.faces.modify key g).mapEntries Face.unmarked =
      r.faces.mapEntries Face.unmarked := Slots.mapEntries_modify h
  simp only [tables, modifyFace, hfaces]

/-! ## Serving -/

/-- Serving a content changes no table. -/
theorem tables_serve (r : Relay) (key : FaceKey) (content : Packet) :
    (r.serve key content).2.tables = r.tables := by
  unfold serve
  split
  · rfl
  · dsimp only
    split
    · split <;> rfl
    · exact tables_enqueue (r.note (.served content key)) key content.suite content.bytes

theorem tables_serveOnce (r : Relay) (content : Packet) (key : FaceKey) :
    (r.serveOnce content key).tables = r.tables := by
  unfold serveOnce
  split
  · rfl
  · split
    · rfl
    · have hmarked : (r.modifyFace key fun f =>
          { f with flags := { f.flags with served := true } }).tables = r.tables :=
        tables_modifyFace r key _ fun _ _ => rfl
      have hserved := (tables_serve _ key content).trans hmarked
      dsimp only
      split
      · rename_i s hserve
        rw [hserve] at hserved
        exact hserved
      · rename_i s hserve
        rw [hserve] at hserved
        exact hserved

theorem tables_foldl_serveOnce (r : Relay) (content : Packet) (keys : List FaceKey) :
    (keys.foldl (serveOnce · content) r).tables = r.tables :=
  List.foldlRecOn (motive := fun s => s.tables = r.tables) keys _ rfl fun s hs key _ =>
    (tables_serveOnce s content key).trans hs

theorem tables_satisfy (r : Relay) (content : Packet) (key : InterestKey) :
    (r.satisfy content key).tables =
      ({ r with pending := r.pending.remove key } : Relay).tables := by
  unfold satisfy
  split
  · rename_i hnone
    have hsame : r.pending.remove key = r.pending := by
      have hslots : (r.pending.slots.remove key).2 = r.pending.slots := by
        unfold Slots.remove
        have : r.pending.slots.get? key = none := hnone
        rw [this]
      simp only [PendingTable.remove, hslots]
    rw [hsame]
  · exact tables_foldl_serveOnce _ content _

theorem tables_foldl_satisfy (r : Relay) (content : Packet) (keys : List InterestKey) :
    (keys.foldl (satisfy · content) r).tables =
      ({ r with pending := r.pending.removeEach keys } : Relay).tables := by
  induction keys generalizing r with
  | nil => rfl
  | cons key keys ih =>
    have hstep := tables_satisfy r content key
    have hpending : (r.satisfy content key).pending = r.pending.remove key :=
      (congrArg Relay.pending hstep :)
    rw [List.foldl_cons]
    refine (ih _).trans ((tables_withPending hstep _).trans ?_)
    rw [hpending]
    rfl

theorem tables_endRound (r : Relay) : r.endRound.tables = r.tables := by
  have hfaces : (r.faces.mapEntries fun f =>
      { f with flags := { f.flags with served := false } }).mapEntries Face.unmarked =
        r.faces.mapEntries Face.unmarked := by
    rw [Slots.mapEntries_mapEntries]
    rfl
  simp only [tables, endRound, hfaces]

/-- A round of deliveries removes the pending interests that it satisfies. -/
theorem tables_servePending (r : Relay) (content : Packet) :
    (r.servePending content).2.tables =
      ({ r with pending := r.pending.removeEach (r.satisfied content) } : Relay).tables :=
  (tables_endRound _).trans (tables_foldl_satisfy r content _)

/-- Storing a content changes the store, and leaves records. -/
theorem store_snd (r : Relay) (content : Packet) (flags : ContentFlags) :
    (r.store content flags).2 =
      ({ r with contents := (r.contents.insert content flags r.now).2 } : Relay).logAll
        ((r.contents.insert content flags r.now).1.records content) := by
  unfold store
  cases r.contents.insert content flags r.now with
  | mk outcome contents => cases outcome <;> rfl

/-! ## Handing over -/

/-- Handing an interest over changes no table. -/
theorem tables_handOver (r : Relay) (interest : Packet) (name : Name) (origin : FaceKey)
    (reflects : Bool) (d : Destination) :
    (r.handOver interest name origin reflects d).2.tables = r.tables := by
  cases d with
  | tap => rfl
  | face key =>
    simp only [handOver]
    split
    · rfl
    · split
      · rfl
      · have hqueued := tables_enqueue (r.note (.handed interest (.face key))) key interest.suite
          interest.bytes
        split
        · rename_i s henqueue
          rw [henqueue] at hqueued
          exact hqueued
        · rename_i s henqueue
          rw [henqueue] at hqueued
          exact hqueued

theorem tables_handOverAll (r : Relay) (interest : Packet) (name : Name) (origin : FaceKey)
    (reflects : Bool) (ds : List Destination) :
    (r.handOverAll interest name origin reflects ds).2.tables = r.tables := by
  induction ds generalizing r with
  | nil => rfl
  | cons d ds ih => exact (ih _).trans (tables_handOver r interest name origin reflects d)

/-- The pending table after an attempt to propagate an interest. -/
def attempted (r : Relay) (key : InterestKey) : PendingTable :=
  r.pending.modify key fun e => { e with lastAttempt := r.now }

/-- Propagating an interest renews the time of its last attempt. -/
theorem tables_propagate (r : Relay) (key : InterestKey) :
    (r.propagate key).2.tables = ({ r with pending := r.attempted key } : Relay).tables := by
  unfold propagate
  split
  · rename_i hnone
    have hsame : r.attempted key = r.pending := by
      have hslots : r.pending.slots.modify key (fun e => { e with lastAttempt := r.now }) =
          r.pending.slots := by
        unfold Slots.modify
        have : r.pending.slots.get? key = none := hnone
        rw [this]
      simp only [attempted, PendingTable.modify, hslots]
    rw [hsame]
  · dsimp only
    split
    · rfl
    · exact tables_handOverAll _ _ _ _ _ _

/-- Sending an interest again is propagating it, and counting that maybe. -/
theorem retransmit_cases (r : Relay) (key : InterestKey) :
    r.retransmit key = (r.propagate key).2 ∨
      r.retransmit key = { (r.propagate key).2 with
        pending := (r.propagate key).2.pending.modify key fun e =>
          { e with retries := e.retries + 1 } } := by
  unfold retransmit
  split
  · rename_i s hs
    exact .inl (congrArg (·.2) hs.symm)
  · rename_i n s _ hs
    exact .inr (by rw [hs])

/-! ## Timers -/

/-- Arming the next sweep asks the host for a timer and keeps its handle, or the one there was. -/
theorem armAgeing_eq (r : Relay) : ∃ timer, r.armAgeing.2 =
    { (r.setTimer r.timeouts.ageingInterval .ageing).2 with ageingTimer := timer } := by
  unfold armAgeing
  split
  · rename_i handle s hs
    exact ⟨some handle, by rw [hs]⟩
  · rename_i s hs
    exact ⟨s.ageingTimer, by rw [hs]⟩

/-- A start arms the next sweep at most, and tells of it. -/
theorem start_cases (r : Relay) : ∃ s, (s = r ∨ s = r.armAgeing.2) ∧
    (r.start.2 = s ∨ ∃ text, r.start.2 = s.log .info text) := by
  unfold start
  split
  rename_i outcome s hs
  refine ⟨s, ?_, ?_⟩
  · split at hs
    · exact .inl (congrArg (·.2) hs.symm)
    · exact .inr (congrArg (·.2) hs.symm)
  · split
    · exact .inl rfl
    · exact .inr ⟨_, rfl⟩

/-- When the timer for it goes off the relay sweeps, and arms the next sweep. -/
theorem onTimer_ageing_cases (r : Relay) {s : Relay}
    (hs : ({ r with ageingTimer := none } : Relay).age.armAgeing.2 = s) :
    r.onTimer .ageing = s ∨ ∃ text, r.onTimer .ageing = s.log .warn text := by
  simp only [onTimer]
  split
  · rename_i hswept
    exact .inl ((congrArg (·.2) hswept.symm :).trans hs)
  · rename_i hswept
    rw [hswept] at hs
    exact .inr ⟨_, congrArg (log · _ _) hs⟩

/-- Setting the timer for the next sweep changes which timer that is. -/
theorem tables_armAgeing (r : Relay) :
    ∃ timer, r.armAgeing.2.tables = ({ r with ageingTimer := timer } : Relay).tables := by
  have hset := tables_of_still (setTimer_still r r.timeouts.ageingInterval .ageing)
  obtain ⟨timer, harm⟩ := armAgeing_eq r
  rw [harm]
  exact ⟨timer, (congrArg (fun t : Relay => { t with ageingTimer := timer }) hset :)⟩

theorem tables_stop (r : Relay) :
    r.stop.tables = ({ r with ageingTimer := none } : Relay).tables := by
  have hcancelled : ∀ (handles : List Nat) (s : Relay),
      (handles.foldl cancelTimer s).tables = s.tables := by
    intro handles
    induction handles with
    | nil => exact fun s => rfl
    | cons handle handles ih =>
      exact fun s => (ih _).trans (tables_of_still (cancelTimer_still s handle))
  have hinterfaces : ∀ s : Relay,
      ({ s with ageingTimer := none, interfaces := s.interfaces.map fun i => { i with timer := none } } :
        Relay).tables = { s.tables with ageingTimer := none } := by
    intro s
    simp only [tables, List.map_map]
    rfl
  unfold stop
  rw [hinterfaces, cancelAll, hcancelled]
  rfl

/-! ## What the tables show -/

section

variable {r s : Relay}

theorem pending_of_tables (h : s.tables = r.tables) : s.pending = r.pending :=
  (congrArg Relay.pending h :)

/-- Handing an interest to the routes changes nothing but the time of its last attempt. -/
theorem get?_propagate (r : Relay) (key k : InterestKey) : (r.propagate key).2.pending.get? k =
    if k = key then (r.pending.get? k).map fun e => { e with lastAttempt := r.now }
    else r.pending.get? k := by
  rw [pending_of_tables (tables_propagate r key)]
  exact Slots.get?_modify r.pending.slots key _ k

theorem contents_of_tables (h : s.tables = r.tables) : s.contents = r.contents :=
  (congrArg Relay.contents h :)

theorem digest_of_tables (h : s.tables = r.tables) : s.host.digest = r.host.digest :=
  (congrArg (fun r : Relay => r.host.digest) h :)

theorem faces_of_tables (h : s.tables = r.tables) :
    s.faces.mapEntries Face.unmarked = r.faces.mapEntries Face.unmarked :=
  (congrArg Relay.faces h :)

theorem face?_of_tables (h : s.tables = r.tables) (key : FaceKey) :
    (s.face? key).map Face.unmarked = (r.face? key).map Face.unmarked := by
  simpa [face?] using congrArg (·.get? key) (faces_of_tables h)

/-- The same keys stand for faces. -/
theorem contains_of_tables (h : s.tables = r.tables) (key : FaceKey) :
    s.faces.contains key = r.faces.contains key := by
  have hface := congrArg Option.isSome (face?_of_tables h key)
  simpa [face?, Slots.contains] using hface

end

theorem contents_servePending (r : Relay) (content : Packet) :
    (r.servePending content).2.contents = r.contents :=
  (contents_of_tables (tables_servePending r content) :)

theorem digest_servePending (r : Relay) (content : Packet) :
    (r.servePending content).2.host.digest = r.host.digest :=
  (digest_of_tables (tables_servePending r content) :)

theorem mem_satisfied {r : Relay} {content : Packet} {key : InterestKey} :
    key ∈ r.satisfied content ↔
      ∃ e, r.pending.get? key = some e ∧ r.answers e.packet content = true := by
  simp only [satisfied, PendingTable.entries, List.mem_map, List.mem_filter, Prod.exists,
    Slots.mem_entries]
  constructor
  · rintro ⟨k, e, ⟨hget, hanswers⟩, rfl⟩
    exact ⟨e, hget, hanswers⟩
  · rintro ⟨e, hget, hanswers⟩
    exact ⟨key, e, ⟨hget, hanswers⟩, rfl⟩

/-- After a round the interests that the content answers are not pending any more, and all others
    are. -/
theorem pending_servePending_iff {r : Relay} {content : Packet} {key : InterestKey}
    {e : PendingInterest} : (r.servePending content).2.pending.get? key = some e ↔
      r.pending.get? key = some e ∧ r.answers e.packet content = false := by
  rw [pending_of_tables (tables_servePending r content)]
  have hget := PendingTable.get?_removeEach r.pending (r.satisfied content) key
  rw [hget]
  constructor
  · intro hkept
    split at hkept
    · cases hkept
    · rename_i hout
      exact ⟨hkept, Bool.eq_false_iff.2 fun hanswers => hout (mem_satisfied.2 ⟨e, hkept, hanswers⟩)⟩
  · rintro ⟨hold, hmiss⟩
    rw [if_neg, hold]
    intro hin
    obtain ⟨d, hd, hanswers⟩ := mem_satisfied.1 hin
    cases hold.symm.trans hd
    rw [hmiss] at hanswers
    cases hanswers

theorem pending_servePending {r : Relay} {content : Packet} {key : InterestKey}
    {e : PendingInterest} (h : (r.servePending content).2.pending.get? key = some e) :
    r.pending.get? key = some e ∧ r.answers e.packet content = false :=
  pending_servePending_iff.1 h

/-- The digest function of the host decides which contents answer an interest that names one. -/
theorem answers_of_digest {r s : Relay} (h : s.host.digest = r.host.digest)
    (interest content : Packet) : s.answers interest content = r.answers interest content := by
  simp only [answers, digestFor, h]

end Relay

end NameRelay
