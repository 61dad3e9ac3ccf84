-- SUMMARY: Which local-only interests leave the node, and when.
import NameRelay.Proofs.Relay.Moves
import NameRelay.Proofs.Relay.Handover
import NameRelay.Proofs.Relay.News

/-!
# Confinement

An interest that must not be forwarded stays on the node when it arrives, and the regular sweep
leaves it alone. But it waits in the pending table like any other, and when a face that wants
everything forwarded asks for the same, the table's interest is propagated without a look at what it
allows. `Leaks` says exactly when that happens. Everything that was ever handed over although it
must not be forwarded went out this way, and the application is shown nothing but what was handed
over.
-/

namespace NameRelay

/-- The deed is allowed if interests must stay that may not be forwarded. -/
def Deed.Allowed : Deed → Prop
  | .handed p _ => p.suite.mayForward p = true
  | _ => True

namespace Relay

theorem HandsNothing.allowed {r s : Relay} (h : HandsNothing r s) : Hands Deed.Allowed r s := by
  refine h.mono fun deed => ?_
  rintro ⟨content, face, rfl⟩
  trivial

/-! ## Taking in an interest -/

/-- When `s` takes in `interest` from `origin`, it hands the pending `p` over to `d`. -/
structure Leaks (s : Relay) (origin : FaceKey) (interest p : Packet) (d : Destination) : Prop where
  unseen : (s.recordNonce interest).1 = false
  unanswered : s.stored? interest = none
  insists : (s.face? origin).any (·.flags.forwardsAll) = true
  joins : ∃ key e, s.pending.find? (fun pending => interest.suite.sameInterest pending interest) =
    some key ∧ s.pending.get? key = some e ∧ e.packet = p ∧ s.Leads e d

/-- The relay in which a face waits with a pending interest too. -/
abbrev joined (r : Relay) (origin : FaceKey) (key : InterestKey) : Relay :=
  { r with pending := r.pending.modify key fun e => e.addWaiter origin r.now }

/-- Another waiter does not change where a pending interest goes. -/
theorem mem_handovers_joined {r : Relay} {origin : FaceKey} {key : InterestKey} {p : Packet}
    {d : Destination} :
    .handed p d ∈ (r.joined origin key).handovers key ↔ .handed p d ∈ r.handovers key := by
  have hget : (r.joined origin key).pending.get? key =
      (r.pending.get? key).map fun e => e.addWaiter origin r.now :=
    (Slots.get?_modify r.pending.slots key _ key).trans (if_pos rfl)
  have hleads (e : PendingInterest) :
      (r.joined origin key).Leads (e.addWaiter origin r.now) d ↔ r.Leads e d := by
    simp only [Leads, PendingInterest.packet_addWaiter, PendingInterest.origin_addWaiter]
    exact Iff.rfl
  simp only [mem_handovers, hget, Option.map_eq_some_iff]
  constructor
  · rintro ⟨_, ⟨e, he, rfl⟩, hp, hgo⟩
    exact ⟨e, he, by simpa using hp, (hleads e).1 hgo⟩
  · rintro ⟨e, he, hp, hgo⟩
    exact ⟨_, ⟨e, he, rfl⟩, by simpa using hp, (hleads e).2 hgo⟩

theorem hands_joinPending (r : Relay) (origin : FaceKey) (key : InterestKey) :
    Hands (· ∈ (r.joined origin key).handovers key) r (r.joinPending origin key) := by
  have hjoined : Hands (· ∈ (r.joined origin key).handovers key) r (r.joined origin key) :=
    .of_same rfl rfl
  unfold joinPending
  dsimp only
  split
  · exact hjoined.trans (hands_propagate _ key)
  · exact hjoined

theorem history_joinPending (r : Relay) (origin : FaceKey) (key : InterestKey) :
    (r.joinPending origin key).history = r.history ++
      if (r.face? origin).any (·.flags.forwardsAll) then (r.joined origin key).handovers key
      else [] := by
  have hface : (r.joined origin key).face? origin = r.face? origin := rfl
  unfold joinPending
  dsimp only
  rw [hface]
  split
  · exact history_propagate _ key
  · simp

/-- Propagating an interest that may be forwarded is allowed. -/
theorem allowed_of_mem_handovers {r : Relay} {key : InterestKey} {deed : Deed}
    (h : deed ∈ r.handovers key)
    (hmay : ∀ e, r.pending.get? key = some e → e.packet.suite.mayForward e.packet = true) :
    deed.Allowed := by
  cases deed with
  | handed p d =>
    obtain ⟨e, he, rfl, -⟩ := mem_handovers.1 h
    exact hmay e he
  | served | began | tried => trivial

/-- An interest that nobody waits with yet is propagated only if it may be forwarded. -/
theorem hands_startPending {r : Relay} (h : r.pending.slots.WellFormed) (origin : FaceKey)
    (interest : Packet) :
    Hands Deed.Allowed r (r.startPending origin interest) := by
  have hput : Hands Deed.Allowed r
      ({ r with pending := (r.pending.insert (.fresh interest origin r.now)).2 }.note
        (.began (r.pending.insert (.fresh interest origin r.now)).1)) :=
    ⟨⟨[.began _], rfl, by simp [Deed.Allowed]⟩, fun _ _ h => .inl h⟩
  unfold startPending
  dsimp only
  split
  · rename_i hmay
    refine hput.trans ((hands_propagate _ _).mono fun deed hmem => allowed_of_mem_handovers hmem ?_)
    intro e he
    have hself : (r.pending.insert (.fresh interest origin r.now)).2.get?
        (r.pending.insert (.fresh interest origin r.now)).1 = some (.fresh interest origin r.now) :=
      Slots.get?_insert_self h _
    cases hself.symm.trans he
    exact hmay
  · exact hput.trans (.log _ _ _)

theorem hands_handleInterest {s : Relay} (h : s.pending.slots.WellFormed) (origin : FaceKey)
    (interest : Packet) : Hands (fun _ => True) s (s.handleInterest origin interest).2 := by
  obtain ⟨nonces, hnonces⟩ := recordNonce_eq s interest
  have hsame : Hands (fun _ => True) s { s with nonces } := .of_same rfl rfl
  unfold handleInterest
  split
  · rename_i t ht
    cases hnonces.symm.trans (congrArg Prod.snd ht)
    exact hsame.trans (.log _ _ _)
  · rename_i t ht
    cases hnonces.symm.trans (congrArg Prod.snd ht)
    split
    · exact hsame.trans ((hands_answerFromStore _ origin interest _).mono fun _ _ => trivial)
    · split
      · exact hsame.trans ((hands_joinPending _ origin _).mono fun _ _ => trivial)
      · have hstarted := hands_startPending (r := { s with nonces }) h origin interest
        exact hsame.trans (hstarted.mono fun _ _ => trivial)

/-- What must not be forwarded is handed over exactly if it leaks. -/
theorem mem_since_handleInterest {s : Relay} (h : s.pending.slots.WellFormed) (origin : FaceKey)
    (interest : Packet) {p : Packet} (hlocal : p.suite.mayForward p = false) (d : Destination) :
    .handed p d ∈ s.since (s.handleInterest origin interest).2 ↔ Leaks s origin interest p d := by
  have hnot : ∀ {t : Relay}, Hands Deed.Allowed s t →
      .handed p d ∉ s.since t := by
    intro t ht hmem
    obtain ⟨new, hnew, hall⟩ := ht.history
    rw [since_of_append hnew] at hmem
    exact absurd (hall _ hmem) (by simp [Deed.Allowed, hlocal])
  obtain ⟨nonces, hnonces⟩ := recordNonce_eq s interest
  have hsame : Hands Deed.Allowed s { s with nonces } :=
    .of_same rfl rfl
  unfold handleInterest
  split
  · rename_i t ht
    cases hnonces.symm.trans (congrArg Prod.snd ht)
    refine iff_of_false (hnot (hsame.trans (.log _ _ _))) fun hleak => ?_
    cases hleak.unseen.symm.trans (congrArg Prod.fst ht)
  · rename_i t ht
    cases hnonces.symm.trans (congrArg Prod.snd ht)
    split
    · rename_i key hstored
      have hanswered := hands_answerFromStore { s with nonces } origin interest key
      have hnothing := hsame.trans (HandsNothing.allowed hanswered)
      refine iff_of_false (hnot hnothing) fun hleak => ?_
      cases hleak.unanswered.symm.trans hstored
    · rename_i hstored
      split
      · rename_i key hfind
        have hsince : s.since ({ s with nonces }.joinPending origin key) = _ :=
          since_of_append (history_joinPending { s with nonces } origin key)
        dsimp only
        constructor
        · intro hmem
          rw [hsince] at hmem
          split at hmem
          · rename_i hinsists
            obtain ⟨e, he, hp, hleads⟩ := mem_handovers.1 (mem_handovers_joined.1 hmem)
            exact ⟨congrArg Prod.fst ht, hstored, hinsists, key, e, hfind, he, hp, hleads⟩
          · cases hmem
        · rintro ⟨-, -, hinsists, k, e, hk, he, hp, hleads⟩
          cases hfind.symm.trans hk
          rw [hsince.trans (if_pos hinsists)]
          exact mem_handovers_joined.2 (mem_handovers.2 ⟨e, he, hp, hleads⟩)
      · rename_i hfind
        have hstarted := hands_startPending (r := { s with nonces }) h origin interest
        refine iff_of_false (hnot (hsame.trans hstarted)) fun hleak => ?_
        obtain ⟨k, e, hk, -⟩ := hleak.joins
        cases hfind.symm.trans hk

/-! ## The sweep -/

theorem hands_retransmit (r : Relay) (key : InterestKey) :
    Hands (· ∈ r.handovers key) r (r.retransmit key) := by
  have hsent := hands_propagate r key
  rcases retransmit_cases r key with heq | heq <;> rw [heq]
  · exact hsent
  · exact hsent.trans (.of_same rfl rfl)

/-- Sending interests again that may be forwarded hands over nothing else. -/
theorem hands_foldl_retransmit {r : Relay} (keys : List InterestKey)
    (h : ∀ key ∈ keys, ∀ e, r.pending.get? key = some e →
      e.packet.suite.mayForward e.packet = true) :
    Hands Deed.Allowed r (keys.foldl retransmit r) := by
  induction keys generalizing r with
  | nil => exact .refl _ r
  | cons key keys ih =>
    have hfirst : Hands Deed.Allowed r (r.retransmit key) := by
      exact (hands_retransmit r key).mono fun deed hmem =>
        allowed_of_mem_handovers hmem (h key List.mem_cons_self)
    refine hfirst.trans (ih fun k hk e he => ?_)
    obtain ⟨old, hold, hsame⟩ := (NothingNew.retransmit r key).pending k e he
    rw [hsame]
    exact h k (List.mem_cons_of_mem key hk) old hold

theorem hands_ageInterests (r : Relay) :
    Hands Deed.Allowed r r.ageInterests := by
  have hdropped : Hands Deed.Allowed r
      { r with pending := (r.pending.expire r.isExpiredInterest).2 } := .of_same rfl rfl
  refine (hdropped.trans (.logAll _ _)).trans (hands_foldl_retransmit _ ?_)
  intro key hkey e he
  obtain ⟨⟨k, d⟩, hmem, rfl⟩ := List.mem_map.1 hkey
  obtain ⟨hentry, hdue⟩ := List.mem_filter.1 hmem
  have hget := Slots.mem_entries.1 hentry
  cases hget.symm.trans he
  exact (Bool.and_eq_true_iff.1 hdue).2

theorem hands_removeFace (r : Relay) (key : FaceKey) :
    HandsNothing r (r.removeFace key).2 := by
  unfold removeFace
  split
  · exact .refl _ r
  · rename_i face faces _
    have htorn : HandsNothing r { r with
        faces
        pending := (r.pending.removeFace key).2
        interfaces := (withdraw key r.interfaces).2
        routes := (r.routes.removeFace key).2
        localFace := if r.localFace = some key then none else r.localFace } := .of_same rfl rfl
    exact htorn.trans (.log _ _ _)

theorem hands_ageContents (r : Relay) : HandsNothing r r.ageContents := by
  have hexpired : HandsNothing r
      { r with contents := (r.contents.expire r.isExpiredContent).2 } := .of_same rfl rfl
  exact (hexpired.trans (.logAll _ _)).trans (.of_same rfl rfl)

theorem hands_armAgeing (r : Relay) : HandsNothing r r.armAgeing.2 := by
  have hset : HandsNothing r (r.setTimer r.timeouts.ageingInterval .ageing).2 :=
    .of_still (setTimer_still r _ _)
  obtain ⟨timer, harm⟩ := armAgeing_eq r
  rw [harm]
  exact hset.trans (.of_same rfl rfl)

theorem hands_stop (r : Relay) : HandsNothing r r.stop := by
  have hcancelled : HandsNothing r (r.cancelAll (r.ageingTimer :: r.interfaces.map (·.timer))) :=
    .foldl (fun r handle => .of_still (cancelTimer_still r handle)) r _
  exact hcancelled.trans (.of_same rfl rfl)

/-! ## Runs -/

/-- Every local-only interest that was handed over leaked, and the application was shown only what
    was handed over. -/
structure Confined (r : Relay) : Prop where
  leaked : ∀ p d, p.suite.mayForward p = false → .handed p d ∈ r.history →
    ∃ s origin interest, Asked s origin interest ∧
      (s.handleInterest origin interest).2.history <+: r.history ∧ Leaks s origin interest p d
  shown : ∀ name bytes, .tap name bytes ∈ r.host.effects → r.MayShow name bytes

namespace Confined

variable {r s : Relay}

/-- Steps that hand over only what may be forwarded keep a relay confined. -/
theorem hands (h : r.Confined) (hs : Hands Deed.Allowed r s) :
    s.Confined := by
  refine ⟨?_, ?_⟩
  · intro p d hlocal hmem
    obtain ⟨new, hnew, hall⟩ := hs.history
    rw [hnew] at hmem
    rcases List.mem_append.1 hmem with hold | hin
    · obtain ⟨t, origin, interest, hasked, hbefore, hleaks⟩ := h.leaked p d hlocal hold
      exact ⟨t, origin, interest, hasked, hbefore.trans hs.grows, hleaks⟩
    · exact absurd (hall _ hin) (by simp [Deed.Allowed, hlocal])
  · intro name bytes htap
    rcases hs.shown name bytes htap with hold | hshown
    · exact (h.shown name bytes hold).mono hs.grows
    · exact hshown

theorem handsNothing (h : r.Confined) (hs : HandsNothing r s) : s.Confined :=
  h.hands hs.allowed

/-- Neither the history nor the effects changed. -/
theorem same (h : r.Confined) (hh : s.history = r.history)
    (he : s.host.effects = r.host.effects) : s.Confined := h.handsNothing (.of_same hh he)

theorem still (h : r.Confined) (hs : s.still = r.still) : s.Confined := h.handsNothing (.of_still hs)

theorem handleInterest {origin : FaceKey} {interest : Packet} (h : s.Confined)
    (hasked : Asked s origin interest) : (s.handleInterest origin interest).2.Confined := by
  have hpending := hasked.knows.consistent.pending
  have hhands := hands_handleInterest hpending origin interest
  refine ⟨?_, ?_⟩
  · intro p d hlocal hmem
    obtain ⟨new, hnew, -⟩ := hhands.history
    rw [hnew] at hmem
    rcases List.mem_append.1 hmem with hold | hin
    · obtain ⟨t, from_, asked, hasked', hbefore, hleaks⟩ := h.leaked p d hlocal hold
      exact ⟨t, from_, asked, hasked', hbefore.trans hhands.grows, hleaks⟩
    · rw [← since_of_append hnew] at hin
      exact ⟨s, origin, interest, hasked, List.prefix_rfl,
        (mem_since_handleInterest hpending origin interest hlocal d).1 hin⟩
  · intro name bytes htap
    rcases hhands.shown name bytes htap with hold | hshown
    · exact (h.shown name bytes hold).mono hhands.grows
    · exact hshown

/-- Every move keeps a relay confined. -/
theorem move (h : r.Confined) (hm : Move r s) : s.Confined := by
  cases hm with
  | log => exact h.still (emit_still r rfl)
  | interest hasked _ => exact h.handleInterest hasked
  | content _ _ => exact h.handsNothing (hands_handleContent r _ _)
  | @publish _ _ packet _ _ hs =>
    have hstored := h.handsNothing (hands_store r packet { pinned := true })
    rw [hs] at hstored
    exact hstored.handsNothing (hands_servePending _ packet)
  | @refuse _ _ packet _ _ hs =>
    have hstored := h.handsNothing (hands_store r packet { pinned := true })
    rw [hs] at hstored
    exact hstored
  | removeFace => exact h.handsNothing (hands_removeFace r _)
  | ageContents => exact h.handsNothing (hands_ageContents r)
  | ageInterests => exact h.hands (hands_ageInterests r)
  | clearToSend => exact h.still (clearToSend_still r _)
  | armAgeing => exact h.handsNothing (hands_armAgeing r)
  | stop => exact h.handsNothing (hands_stop r)
  | expire hexpire =>
    obtain ⟨timer, -, htimer⟩ := Option.map_eq_some_iff.1 hexpire
    cases htimer
    exact h.same rfl rfl
  | fragment | removeContent | setCacheLimit | newFace | flagFace | newApplicationFace | hear
    | newInterface | pace | newRoute | removeRoute | nextNonce | disarm | clock =>
    exact h.same rfl rfl

end Confined

theorem confined_withLimits (now : Instant) (digest : Bytes → Option Bytes) (grants : Nat → Bool)
    (c : Config) : (withLimits (Host.fresh now digest grants) c).Confined where
  leaked := by simp [withLimits]
  shown := by simp [withLimits, Host.fresh]

/-- Every reachable state is confined. -/
theorem Reachable.confined {r : Relay} (h : Reachable r) : r.Confined :=
  h.visited.keeps confined_withLimits fun _ hr hm => hr.move hm

/-- A local-only interest is handed over if and only if it leaks: taking in an interest does it
    exactly then, nothing else in a run does it, and the application is shown only what was handed
    over. -/
theorem localOnly_handed_iff_leaks {p : Packet} (hlocal : p.suite.mayForward p = false)
    (d : Destination) :
    (∀ s origin interest, Asked s origin interest →
      (.handed p d ∈ s.since (s.handleInterest origin interest).2 ↔
        Leaks s origin interest p d)) ∧
    (∀ r, Reachable r → .handed p d ∈ r.history →
      ∃ s origin interest, Asked s origin interest ∧
        (s.handleInterest origin interest).2.history <+: r.history ∧
        Leaks s origin interest p d) ∧
    ∀ r name bytes, Reachable r → .tap name bytes ∈ r.host.effects → r.MayShow name bytes := by
  refine ⟨?_, ?_, ?_⟩
  · intro s origin interest hasked
    exact mem_since_handleInterest hasked.knows.consistent.pending origin interest hlocal d
  · intro r hr hmem
    exact hr.confined.leaked p d hlocal hmem
  · intro r name bytes hr htap
    exact hr.confined.shown name bytes htap

/-- An interest for `/a` that must stay on its link. -/
def localInterest : Packet where
  bytes := [5, 14, 7, 3, 8, 1, 97, 10, 4, 0, 0, 0, 1, 11, 1, 1]
  body := .message .interest ⟨.ndn, [[97]], none, ⟨false, false⟩⟩ none
  details := .ndn { minSuffix := 0, maxSuffix := 64, scope := 1, nonce := some [0, 0, 0, 1] }

/-- The local-only interest waits; then a face that wants everything forwarded asks for `/a`. The
    interface is paced, so what is sent waits there. -/
def afterInsistence : Relay :=
  (Relay.fresh (Host.fresh ⟨0⟩ (fun _ => none) fun _ => true)).performAll
    [.addInterface .application 0 {}, .setPacing 0 (some 1), .addFace 0 (.path "upstream") {},
      .addFace 0 (.path "insistent") { forwardsAll := true },
      .addRoute ⟨.ndn, [[97]], none, ⟨false, false⟩⟩ .ndn (.face ⟨0, 0⟩),
      .receive 0 localInterest.bytes (.path "reader"),
      .receive 0 [5, 11, 7, 3, 8, 1, 97, 10, 4, 0, 0, 0, 2] (.path "insistent")]

/-- The local-only interest goes upstream. -/
theorem localInterest_leaks :
    ∃ r : Relay, Reachable r ∧ .handed localInterest (.face ⟨0, 0⟩) ∈ r.history ∧
      ∃ s origin interest, Asked s origin interest ∧
        (s.handleInterest origin interest).2.history <+: r.history ∧
        Leaks s origin interest localInterest (.face ⟨0, 0⟩) := by
  have hlocal : localInterest.suite.mayForward localInterest = false := by decide
  have hreached : Reachable afterInsistence := (Reachable.fresh _ _ _).performAll _
  have hhanded : .handed localInterest (.face ⟨0, 0⟩) ∈ afterInsistence.history := by
    decide +kernel
  exact ⟨_, hreached, hhanded,
    (localOnly_handed_iff_leaks hlocal (.face ⟨0, 0⟩)).2.1 _ hreached hhanded⟩

end Relay

end NameRelay
