-- SUMMARY: When an interest that may be forwarded ends up behind one that may not.
import NameRelay.Proofs.Format.Framing
import NameRelay.Proofs.Name.Matching
import NameRelay.Proofs.Relay.Delivery
import NameRelay.Proofs.Relay.Moves
import NameRelay.Proofs.Relay.News

/-!
# Aggregation

An interest that asks for the same as a pending one joins it and is not sent by itself. What counts
when two are compared are names and selectors, and how far an interest may travel is not among them.
So an interest that may be forwarded can join one that must not, and nobody sends it.

No two pending interests ask for the same. The one to join is therefore determined by what is asked,
and the asking face comes to wait with an interest that may be forwarded exactly if the pending
interest that asks for the same, should there be one, may be.
-/

namespace NameRelay

/-! ## Asking for the same -/

/-- What counts of an interest when it is compared to another. -/
structure Question where
  name : Name
  /-- The smallest and the largest number of further components, and the publisher's key. -/
  selectors : Option (UInt64 × UInt64 × Option Bytes) := none

/-- What a packet asks for; nothing if it has no name, or no selectors where the suite has them. -/
def Suite.question? (suite : Suite) (p : Packet) : Option Question :=
  p.name?.bind fun name =>
    match suite, p.details with
    | .ccnx, _ | .cisco, _ | .iot, _ => some ⟨name, none⟩
    | .ccnb, .ccnb d => some ⟨name, some (d.minSuffix, d.maxSuffix, d.publisherKey)⟩
    | .ndn, .ndn d => some ⟨name, some (d.minSuffix, d.maxSuffix, d.publisherKey)⟩
    | _, _ => none

/-- The name of the packet, if it has one, is a name of its suite. -/
def Packet.Uniform (p : Packet) : Prop := ∀ name, p.name? = some name → name.suite = p.suite

namespace Suite

variable {suite : Suite} {a b c : Packet}

/-- Two interests are the same if they ask for the same. -/
theorem sameInterest_iff : suite.sameInterest a b = true ↔
    (suite.question? a).isSome = true ∧ suite.question? a = suite.question? b := by
  unfold sameInterest question?
  cases a.name? with
  | none => simp
  | some m =>
    cases b.name? with
    | none =>
      refine iff_of_false nofun fun ⟨hsome, hnone⟩ => ?_
      rw [hnone] at hsome
      cases hsome
    | some n =>
      cases suite with
      | ccnx | cisco | iot => simp [Name.same_iff]
      | ccnb | ndn => cases a.details <;> cases b.details <;> simp [Name.same_iff, and_assoc]

theorem sameInterest_symm (h : suite.sameInterest a b = true) : suite.sameInterest b a = true := by
  obtain ⟨hsome, hsame⟩ := sameInterest_iff.1 h
  exact sameInterest_iff.2 ⟨hsame ▸ hsome, hsame.symm⟩

theorem sameInterest_trans (h : suite.sameInterest a b = true)
    (h' : suite.sameInterest b c = true) : suite.sameInterest a c = true := by
  obtain ⟨hsome, hsame⟩ := sameInterest_iff.1 h
  exact sameInterest_iff.2 ⟨hsome, hsame.trans (sameInterest_iff.1 h').2⟩

/-- An interest is the same as itself. -/
theorem sameInterest_self (h : a.isInterest = true) : a.suite.sameInterest a a = true := by
  obtain ⟨bytes, body, details⟩ := a
  cases body with
  | fragment => cases h
  | message kind name content => exact sameInterest_iff.2 ⟨by cases details <;> rfl, rfl⟩

/-- Interests that are the same have the same name. -/
theorem name?_eq_of_sameInterest (h : suite.sameInterest a b = true) :
    ∃ name, a.name? = some name ∧ b.name? = some name := by
  unfold sameInterest at h
  split at h
  · rename_i m n ha hb
    have hsame : m.same n = true := by
      cases suite with
      | ccnx | cisco | iot => exact h
      | ccnb | ndn =>
        dsimp only at h
        split at h
        · simp only [Bool.and_eq_true] at h
          exact h.1.1.1
        · cases h
    exact ⟨m, ha, Name.same_iff.1 hsame ▸ hb⟩
  · cases h

/-- Interests that are the same are of the same suite. -/
theorem suite_eq_of_sameInterest (ha : a.Uniform) (hb : b.Uniform)
    (h : suite.sameInterest a b = true) : a.suite = b.suite := by
  obtain ⟨name, hname, hname'⟩ := name?_eq_of_sameInterest h
  exact (ha name hname).symm.trans (hb name hname')

end Suite

/-! ## Packets with names of their suite -/

theorem Suite.uniform_of_decode {suite : Suite} {bytes : Bytes} {p : Packet} {n : Nat}
    (h : suite.decode bytes = .ok (p, n)) : p.Uniform := by
  have hframed := decode_framed h
  obtain ⟨wire, body, details⟩ := p
  intro name hname
  cases body with
  | fragment => cases hname
  | message kind read content =>
    cases hname
    exact hframed.body.1.trans hframed.ofSuite.symm

theorem Datagram.uniform_of_mem_readFrom {switched : Option Suite} {offset : Nat} {bytes : Bytes}
    {p : Packet} (h : p ∈ (readFrom switched offset bytes).packets) : p.Uniform := by
  fun_induction readFrom switched offset bytes with
  | case1 | case2 | case4 | case5 | case6 => cases h
  | case3 _ _ _ _ _ _ _ ih => exact ih h
  | case7 _ _ _ _ _ _ _ _ _ hd _ ih =>
    rcases List.mem_cons.1 h with rfl | hmore
    · exact Suite.uniform_of_decode hd
    · exact ih hmore

theorem Details.suite_withHopLimit (details : Details) (limit : UInt8) :
    (details.withHopLimit limit).suite = details.suite := by
  cases details <;> rfl

theorem Packet.Uniform.withLoweredHopLimit {p lowered : Packet} (h : p.Uniform)
    (hhop : p.withLoweredHopLimit = some lowered) : lowered.Uniform := by
  unfold Packet.withLoweredHopLimit at hhop
  split at hhop
  · split at hhop
    · cases hhop
    · obtain ⟨q, hq, rfl⟩ := Option.map_eq_some_iff.1 hhop
      unfold Packet.withByteReplaced at hq
      split at hq
      · cases hq
        exact fun name hname => (h name hname).trans (p.details.suite_withHopLimit _).symm
      · cases hq
  · cases hhop
    exact h

theorem Suite.uniform_of_readBack {suite : Suite} {wire : Bytes} {p : Packet}
    (h : suite.readBack wire = .ok p) : p.Uniform := by
  obtain ⟨switched, -, hread⟩ := ok_of_bind h
  obtain ⟨⟨q, n⟩, hdecode, hend⟩ := ok_of_bind hread
  dsimp only at hend
  split at hend
  · cases hend
    cases hd : suite.decode (wire.drop (switched.elim 0 (·.2))) with
    | error e =>
      rw [hd] at hdecode
      cases hdecode
    | ok read =>
      rw [hd] at hdecode
      cases hdecode
      exact uniform_of_decode hd
  · cases hend

namespace Relay

variable {r s : Relay}

theorem Handles.uniform {onFragment : FragmentHandler} {key : FaceKey} {packet : Packet}
    (h : Handles onFragment r key packet) : packet.Uniform := by
  have hmem {onFragment : FragmentHandler} {r s : Relay} {bytes : Bytes}
      (hup : Upcoming onFragment key r bytes s packet) : packet.Uniform := by
    obtain ⟨before, after, hpackets, -⟩ := hup
    have hread : packet ∈ (Datagram.readFrom none 0 bytes).packets := by
      rw [← Datagram.read, hpackets]
      exact List.mem_append_right before List.mem_cons_self
    exact Datagram.uniform_of_mem_readFrom hread
  cases h with
  | received _ _ hup => exact hmem hup
  | reassembled _ _ _ hup => exact hmem hup

theorem Asked.uniform {key : FaceKey} {interest : Packet} (h : Asked r key interest) :
    interest.Uniform := by
  cases h with
  | received hhandles _ hhop => exact hhandles.uniform.withLoweredHopLimit hhop
  | requested _ _ _ hback _ => exact Suite.uniform_of_readBack hback

/-! ## Pending interests differ -/

/-- No two pending interests are the same, and each has a name of its suite. -/
structure Apart (r : Relay) : Prop where
  uniform : ∀ key e, r.pending.get? key = some e → e.packet.Uniform
  distinct : ∀ key e k d, r.pending.get? key = some e → r.pending.get? k = some d →
    e.packet.suite.sameInterest e.packet d.packet = true → key = k

/-- No interest is pending in `s` that is not in `r`. -/
def NoNewInterest (r s : Relay) : Prop :=
  ∀ key e, s.pending.get? key = some e → ∃ old, r.pending.get? key = some old ∧ e.packet = old.packet

theorem noNewInterest_of_eq (h : s.pending = r.pending) : NoNewInterest r s := by
  intro key e he
  rw [h] at he
  exact ⟨e, he, rfl⟩

theorem noNewInterest_servePending (r : Relay) (content : Packet) :
    NoNewInterest r (r.servePending content).2 := (NothingNew.servePending r content).pending

theorem noNewInterest_handleContent (r : Relay) (origin : FaceKey) (content : Packet) :
    NoNewInterest r (r.handleContent origin content).2 := by
  have hserved := noNewInterest_servePending r content
  unfold handleContent
  split
  · exact noNewInterest_of_eq rfl
  · split
    · rename_i s hs
      rw [hs] at hserved
      exact hserved
    · rename_i n s _ hs
      rw [hs] at hserved
      split
      · intro key e he
        rw [(store_unrelated s content {}).1] at he
        exact hserved key e he
      · exact hserved

namespace Apart

theorem mono (h : r.Apart) (hs : NoNewInterest r s) : s.Apart where
  uniform key e he := by
    obtain ⟨old, hold, hpacket⟩ := hs key e he
    rw [hpacket]
    exact h.uniform key old hold
  distinct key e k d he hd hsame := by
    obtain ⟨old, hold, hpacket⟩ := hs key e he
    obtain ⟨was, hwas, hpacket'⟩ := hs k d hd
    rw [hpacket, hpacket'] at hsame
    exact h.distinct key old k was hold hwas hsame

/-- An interest may be put next to pending ones that are all different. -/
theorem insert (h : r.Apart) (hslots : r.pending.slots.WellFormed) {interest : Packet}
    (huniform : interest.Uniform)
    (hnone : ∀ key e, r.pending.get? key = some e →
      interest.suite.sameInterest e.packet interest = false) (origin : FaceKey) (now : Instant) :
    ({ r with pending := (r.pending.insert (.fresh interest origin now)).2 } : Relay).Apart where
  uniform key e he := by
    rcases Slots.get?_of_get?_insert he with rfl | hold
    · exact huniform
    · exact h.uniform key e hold
  distinct key e k d he hd hsame := by
    have hself := Slots.get?_insert_self hslots (PendingInterest.fresh interest origin now)
    have hget {key : InterestKey} {e : PendingInterest}
        (hne : key ≠ (r.pending.slots.insert (.fresh interest origin now)).1)
        (he : (r.pending.slots.insert (.fresh interest origin now)).2.get? key = some e) :
        r.pending.get? key = some e := (Slots.get?_insert_of_ne hslots _ hne).symm.trans he
    by_cases hkey : key = (r.pending.slots.insert (.fresh interest origin now)).1
    · by_cases hk : k = (r.pending.slots.insert (.fresh interest origin now)).1
      · exact hkey.trans hk.symm
      · rw [hkey] at he
        cases hself.symm.trans he
        cases (hnone k d (hget hk hd)).symm.trans (Suite.sameInterest_symm hsame)
    · have hold := hget hkey he
      by_cases hk : k = (r.pending.slots.insert (.fresh interest origin now)).1
      · rw [hk] at hd
        cases hself.symm.trans hd
        rw [Suite.suite_eq_of_sameInterest (h.uniform key e hold) huniform hsame] at hsame
        cases (hnone key e hold).symm.trans hsame
      · exact h.distinct key e k d hold (hget hk hd) hsame

theorem startPending (h : r.Apart) (hslots : r.pending.slots.WellFormed) {interest : Packet}
    (huniform : interest.Uniform)
    (hnone : ∀ key e, r.pending.get? key = some e →
      interest.suite.sameInterest e.packet interest = false) (origin : FaceKey) :
    (r.startPending origin interest).Apart := by
  have hput := h.insert hslots huniform hnone origin r.now
  unfold Relay.startPending
  dsimp only
  split
  · exact hput.mono (NothingNew.propagate _ _).pending
  · exact hput.mono (noNewInterest_of_eq rfl)

theorem handleInterest (h : r.Apart) (hslots : r.pending.slots.WellFormed) {interest : Packet}
    (huniform : interest.Uniform) (origin : FaceKey) : (r.handleInterest origin interest).2.Apart := by
  obtain ⟨nonces, hnonces⟩ := recordNonce_eq r interest
  have hrecorded : ({ r with nonces } : Relay).Apart := h.mono (noNewInterest_of_eq rfl)
  unfold Relay.handleInterest
  split
  · rename_i s hs
    cases hnonces.symm.trans (congrArg Prod.snd hs)
    exact hrecorded.mono (noNewInterest_of_eq rfl)
  · rename_i s hs
    cases hnonces.symm.trans (congrArg Prod.snd hs)
    split
    · exact hrecorded.mono (NothingNew.answerFromStore _ origin interest _).pending
    · split
      · exact hrecorded.mono (NothingNew.joinPending _ origin _).pending
      · rename_i hnone
        exact hrecorded.startPending hslots huniform (Slots.find?_eq_none_iff.1 hnone) origin

/-- Every move keeps pending interests different. -/
theorem move (h : r.Apart) (hr : r.Consistent) (hm : Move r s) : s.Apart := by
  cases hm with
  | interest hasked _ => exact h.handleInterest hr.pending hasked.uniform _
  | content _ _ => exact h.mono (noNewInterest_handleContent r _ _)
  | @publish _ _ packet _ _ hs =>
    have hstored := (store_unrelated r packet { pinned := true }).1
    rw [hs] at hstored
    exact (h.mono (noNewInterest_of_eq hstored)).mono (noNewInterest_servePending _ packet)
  | @refuse _ _ packet _ _ hs =>
    have hstored := (store_unrelated r packet { pinned := true }).1
    rw [hs] at hstored
    exact h.mono (noNewInterest_of_eq hstored)
  | removeFace => exact h.mono (NothingNew.removeFace r _).pending
  | ageContents => exact h.mono (NothingNew.ageContents r).pending
  | ageInterests => exact h.mono (NothingNew.ageInterests r).pending
  | clearToSend =>
    exact h.mono (noNewInterest_of_eq (pending_of_tables (tables_of_still (clearToSend_still r _))))
  | armAgeing => exact h.mono (NothingNew.armAgeing r).pending
  | stop => exact h.mono (NothingNew.stop r).pending
  | log | removeContent | setCacheLimit | fragment | newFace | flagFace | newApplicationFace | hear
    | newInterface | pace | newRoute | removeRoute | nextNonce | disarm | clock | expire =>
    exact h.mono (noNewInterest_of_eq rfl)

end Apart

theorem apart_withLimits (host : Host) (c : Config) : (withLimits host c).Apart where
  uniform key e he := by simp [withLimits, PendingTable.get?, PendingTable.empty] at he
  distinct key e k d he := by simp [withLimits, PendingTable.get?, PendingTable.empty] at he

theorem Visited.apart (h : Visited r) : r.Apart :=
  h.keeps (fun _ _ _ _ => apart_withLimits _ _) fun hr h hm => h.move hr hm

/-! ## Who waits with what -/

/-- The face waits with an interest that is the same and may be forwarded. -/
def WaitsForwardably (r : Relay) (face : FaceKey) (interest : Packet) : Prop :=
  ∃ key e, r.pending.get? key = some e ∧ face ∈ e.faces ∧
    interest.suite.sameInterest e.packet interest = true ∧
    e.packet.suite.mayForward e.packet = true

theorem mem_faces_addWaiter (e : PendingInterest) (face : FaceKey) (now : Instant) :
    face ∈ (e.addWaiter face now).faces := by
  rw [PendingInterest.faces_addWaiter]
  split
  · assumption
  · exact List.mem_append_right _ (List.mem_singleton_self face)

theorem stays_propagate {r : Relay} {key : InterestKey} {e : PendingInterest}
    (h : r.pending.get? key = some e) (k : InterestKey) :
    ∃ d, (r.propagate k).2.pending.get? key = some d ∧ d.faces = e.faces ∧ d.packet = e.packet := by
  rw [get?_propagate, h]
  split
  · exact ⟨_, rfl, rfl, rfl⟩
  · exact ⟨_, rfl, rfl, rfl⟩

theorem get?_joinPending {r : Relay} {key : InterestKey} {e : PendingInterest}
    (h : r.pending.get? key = some e) (origin : FaceKey) :
    ∃ d, (r.joinPending origin key).pending.get? key = some d ∧ origin ∈ d.faces ∧
      d.packet = e.packet := by
  have hjoined : (r.pending.modify key fun e => e.addWaiter origin r.now).get? key =
      some (e.addWaiter origin r.now) := by
    have hget := Slots.get?_modify r.pending.slots key (fun e => e.addWaiter origin r.now) key
    have hold : r.pending.slots.get? key = some e := h
    rwa [if_pos rfl, hold] at hget
  have hmem := mem_faces_addWaiter e origin r.now
  have hpacket := e.packet_addWaiter origin r.now
  unfold joinPending
  dsimp only
  split
  · obtain ⟨d, hd, hfaces, hsame⟩ := stays_propagate
      (r := { r with pending := r.pending.modify key fun e => e.addWaiter origin r.now }) hjoined key
    exact ⟨d, hd, hfaces ▸ hmem, hsame.trans hpacket⟩
  · exact ⟨_, hjoined, hmem, hpacket⟩

theorem get?_startPending {r : Relay} (h : r.pending.slots.WellFormed) (origin : FaceKey)
    (interest : Packet) :
    ∃ key e, (r.startPending origin interest).pending.get? key = some e ∧ origin ∈ e.faces ∧
      e.packet = interest := by
  have hself : (r.pending.insert (.fresh interest origin r.now)).2.get?
      (r.pending.insert (.fresh interest origin r.now)).1 = some (.fresh interest origin r.now) :=
    Slots.get?_insert_self h _
  have hmem : origin ∈ (PendingInterest.fresh interest origin r.now).faces := by
    simp [PendingInterest.fresh, PendingInterest.faces]
  unfold startPending
  dsimp only
  split
  · obtain ⟨d, hd, hfaces, hsame⟩ := stays_propagate (r := Relay.note { r with
      pending := (r.pending.insert (.fresh interest origin r.now)).2 } _) hself _
    exact ⟨_, d, hd, hfaces ▸ hmem, hsame⟩
  · exact ⟨_, _, hself, hmem, rfl⟩

/-- An interest that is neither dropped nor answered joins the pending interest that is the same, or
    waits by itself if there is none. -/
theorem handleInterest_joins {s : Relay} (h : s.pending.slots.WellFormed) (origin : FaceKey)
    {interest : Packet} (hunseen : (s.recordNonce interest).1 = false)
    (hunanswered : s.stored? interest = none) :
    ∃ key e, (s.handleInterest origin interest).2.pending.get? key = some e ∧ origin ∈ e.faces ∧
      ((∃ d, s.pending.get? key = some d ∧
          interest.suite.sameInterest d.packet interest = true ∧ e.packet = d.packet) ∨
        (∀ k d, s.pending.get? k = some d →
          interest.suite.sameInterest d.packet interest = false) ∧ e.packet = interest) := by
  obtain ⟨nonces, hnonces⟩ := recordNonce_eq s interest
  unfold handleInterest
  split
  · rename_i t ht
    cases hunseen.symm.trans (congrArg Prod.fst ht)
  · rename_i t ht
    cases hnonces.symm.trans (congrArg Prod.snd ht)
    split
    · rename_i key hstored
      cases hunanswered.symm.trans hstored
    · split
      · rename_i key hfind
        obtain ⟨d, hd, hsame⟩ := Slots.get?_of_find? hfind
        obtain ⟨e, he, hmem, hpacket⟩ := get?_joinPending (r := { s with nonces }) hd origin
        exact ⟨key, e, he, hmem, .inl ⟨d, hd, hsame, hpacket⟩⟩
      · rename_i hnone
        obtain ⟨key, e, he, hmem, hpacket⟩ :=
          get?_startPending (r := { s with nonces }) h origin interest
        exact ⟨key, e, he, hmem, .inr ⟨Slots.find?_eq_none_iff.1 hnone, hpacket⟩⟩

/-- An interest that may be forwarded, and is neither dropped for its nonce nor answered from the
    store, makes its face wait with one that may be forwarded if and only if no interest that must
    not be forwarded is pending and the same. -/
theorem waitsForwardably_iff {s : Relay} (hs : Visited s) (origin : FaceKey) {interest : Packet}
    (hinterest : interest.isInterest = true) (huniform : interest.Uniform)
    (hmay : interest.suite.mayForward interest = true)
    (hunseen : (s.recordNonce interest).1 = false) (hunanswered : s.stored? interest = none) :
    (s.handleInterest origin interest).2.WaitsForwardably origin interest ↔
      ∀ key e, s.pending.get? key = some e →
        interest.suite.sameInterest e.packet interest = true →
        e.packet.suite.mayForward e.packet = true := by
  have hslots := hs.consistent.pending
  have hbefore := hs.apart
  have hafter := hbefore.handleInterest hslots huniform origin
  -- Of two pending interests that are the same as the new one there is only one.
  have hone {r : Relay} (hr : r.Apart) {key k : InterestKey} {e d : PendingInterest}
      (he : r.pending.get? key = some e) (hd : r.pending.get? k = some d)
      (hsame : interest.suite.sameInterest e.packet interest = true)
      (hsame' : interest.suite.sameInterest d.packet interest = true) : e = d := by
    have hboth := Suite.sameInterest_trans hsame (Suite.sameInterest_symm hsame')
    rw [← Suite.suite_eq_of_sameInterest (hr.uniform key e he) huniform hsame] at hboth
    obtain rfl := hr.distinct key e k d he hd hboth
    exact Option.some_inj.1 (he.symm.trans hd)
  obtain ⟨key, e, he, hmem, ⟨d, hd, hsame, hpacket⟩ | ⟨hnone, hpacket⟩⟩ :=
    handleInterest_joins hslots origin hunseen hunanswered
  · have hsame' : interest.suite.sameInterest e.packet interest = true := by rwa [hpacket]
    constructor
    · rintro ⟨k, e', he', -, hsame'', hforward⟩ k₂ d' hd' hsamed
      cases hone hafter he he' hsame' hsame''
      cases hone hbefore hd hd' hsame hsamed
      rwa [hpacket] at hforward
    · intro hall
      refine ⟨key, e, he, hmem, hsame', ?_⟩
      rw [hpacket]
      exact hall key d hd hsame
  · refine iff_of_true ⟨key, e, he, hmem, ?_, ?_⟩ fun k d hd hsame => ?_
    · rw [hpacket]
      exact Suite.sameInterest_self hinterest
    · rwa [hpacket]
    · cases (hnone k d hd).symm.trans hsame

/-- An interest for `/a` that may travel anywhere. -/
def openInterest : Packet where
  bytes := [5, 11, 7, 3, 8, 1, 97, 10, 4, 0, 0, 0, 2]
  body := .message .interest ⟨.ndn, [[97]], none, .none⟩ none
  details := .ndn { nonce := some [0, 0, 0, 2] }

/-- A reader asks for `/a` on its own link only. -/
def afterScopedInterest : Relay :=
  (Relay.fresh (Host.fresh ⟨0⟩ (fun _ => none) fun _ => true)).performAll
    [.addInterface .application 0 {}, .addFace 0 (.path "other") {},
      .receive 0 [5, 14, 7, 3, 8, 1, 97, 10, 4, 0, 0, 0, 1, 11, 1, 1] (.path "reader")]

/-- Another reader asks for `/a` anywhere, and waits with nothing that may be forwarded. -/
theorem openInterest_not_waitsForwardably :
    Reachable afterScopedInterest ∧
      openInterest.suite.mayForward openInterest = true ∧
      ¬(afterScopedInterest.handleInterest ⟨0, 0⟩ openInterest).2.WaitsForwardably ⟨0, 0⟩
        openInterest := by
  have hreached : Reachable afterScopedInterest := (Reachable.fresh _ _ _).performAll _
  have hmay : openInterest.suite.mayForward openInterest = true := by decide
  have huniform : openInterest.Uniform := fun name hname => by cases hname; rfl
  have hunseen : (afterScopedInterest.recordNonce openInterest).1 = false := by decide +kernel
  have hunanswered : afterScopedInterest.stored? openInterest = none := by decide +kernel
  have hiff := waitsForwardably_iff hreached.visited ⟨0, 0⟩ rfl huniform hmay hunseen hunanswered
  refine ⟨hreached, hmay, fun hwaits => ?_⟩
  have hlocal : (afterScopedInterest.pending.get? ⟨0, 0⟩).any (fun e =>
      openInterest.suite.sameInterest e.packet openInterest &&
        !e.packet.suite.mayForward e.packet) = true := by decide +kernel
  obtain ⟨e, he, hboth⟩ := (Option.any_eq_true _ _).1 hlocal
  obtain ⟨hsame, hstays⟩ := Bool.and_eq_true_iff.1 hboth
  rw [hiff.1 hwaits _ e he hsame] at hstays
  cases hstays

end Relay

end NameRelay
