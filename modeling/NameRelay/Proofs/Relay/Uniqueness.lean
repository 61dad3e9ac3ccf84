-- SUMMARY: No table of a relay holds anything twice.
import NameRelay.Proofs.Relay.Aggregation
import NameRelay.Proofs.Relay.Pinning
import NameRelay.Proofs.Relay.Places
import NameRelay.Proofs.Table.Unique

/-!
# Uniqueness

Each table has a relation of its own by which it takes two entries to be the same: what an interest
asks for, the name of a route, the bytes of a content, the place of a face, the suite and the bytes
of a nonce. Whatever comes into a table was looked for there first. So in every reachable state no
table holds two entries that are the same.

For interests, contents and places this is shown where they are dealt with. Here are routes and
nonces, and the result for all tables.
-/

namespace NameRelay

namespace Relay

variable {r s : Relay}

/-! ## Routes -/

/-- Every move leaves each name with at most one route. -/
theorem nodup_names_of_move (h : r.routes.names.Nodup) (hm : Move r s) : s.routes.names.Nodup := by
  cases hm.arranged with
  | kept _ _ hroutes => rwa [hroutes]
  | newFace | newApplicationFace => exact h
  | removeFace _ _ key =>
    unfold removeFace
    split
    · exact h
    · exact RouteTable.nodup_names_removeFace h key
  | newRoute => exact RouteTable.nodup_names_insert h
  | removeRoute => exact RouteTable.nodup_names_remove h

theorem Visited.nodup_names (h : Visited r) : r.routes.names.Nodup :=
  h.keeps (fun _ _ _ _ => .nil) fun _ hr hm => nodup_names_of_move hr hm

/-! ## Nonces

A nonce is recorded when an interest is taken in, and at no other time. -/

theorem nonces_of_tables (h : s.tables = r.tables) : s.nonces = r.nonces :=
  (congrArg Relay.nonces h :)

theorem nonces_propagate (r : Relay) (key : InterestKey) :
    (r.propagate key).2.nonces = r.nonces := (nonces_of_tables (tables_propagate r key) :)

theorem nonces_joinPending (r : Relay) (origin : FaceKey) (key : InterestKey) :
    (r.joinPending origin key).nonces = r.nonces := by
  unfold joinPending
  dsimp only
  split
  · exact nonces_propagate _ key
  · rfl

theorem nonces_startPending (r : Relay) (origin : FaceKey) (interest : Packet) :
    (r.startPending origin interest).nonces = r.nonces := by
  unfold startPending
  dsimp only
  split
  · exact nonces_propagate _ _
  · rfl

theorem nonces_answerFromStore (r : Relay) (origin : FaceKey) (interest : Packet)
    (key : ContentKey) : (r.answerFromStore origin interest key).2.nonces = r.nonces := by
  unfold answerFromStore
  dsimp only
  split
  · rfl
  · exact (nonces_of_tables (tables_serve _ _ _)).trans rfl

/-- Taking in an interest records its nonce, and no other. -/
theorem nonces_handleInterest (r : Relay) (origin : FaceKey) (interest : Packet) :
    (r.handleInterest origin interest).2.nonces = (r.recordNonce interest).2.nonces := by
  unfold handleInterest
  split
  · rename_i s hs
    rw [hs]
    rfl
  · rename_i s hs
    rw [hs]
    split
    · exact nonces_answerFromStore s origin interest _
    · split
      · exact nonces_joinPending s origin _
      · exact nonces_startPending s origin interest

theorem nonces_servePending (r : Relay) (content : Packet) :
    (r.servePending content).2.nonces = r.nonces := (nonces_of_tables (tables_servePending r content) :)

theorem nonces_store (r : Relay) (content : Packet) (flags : ContentFlags) :
    (r.store content flags).2.nonces = r.nonces := by
  rw [store_snd]
  exact (nonces_of_tables (tables_logAll _ _) :)

theorem nonces_handleContent (r : Relay) (origin : FaceKey) (content : Packet) :
    (r.handleContent origin content).2.nonces = r.nonces := by
  have hserved := nonces_servePending r content
  unfold handleContent
  split
  · rfl
  · split
    · rename_i s hs
      rw [hs] at hserved
      exact hserved
    · rename_i n s _ hs
      rw [hs] at hserved
      split
      · exact (nonces_store s content {}).trans hserved
      · exact hserved

theorem nonces_ageInterests (r : Relay) : r.ageInterests.nonces = r.nonces := by
  have hretransmit (s : Relay) (key : InterestKey) : (s.retransmit key).nonces = s.nonces := by
    rcases retransmit_cases s key with heq | heq <;> rw [heq] <;> exact nonces_propagate s key
  have hexpired := nonces_of_tables (tables_logAll
    { r with pending := (r.pending.expire r.isExpiredInterest).2 }
    ((r.pending.expire r.isExpiredInterest).1.map fun e => timedOutInterest e.2))
  exact List.foldlRecOn (motive := fun s : Relay => s.nonces = r.nonces) _ retransmit hexpired
    fun s hs key _ => (hretransmit s key).trans hs

theorem nonces_removeFace (r : Relay) (key : FaceKey) : (r.removeFace key).2.nonces = r.nonces := by
  unfold removeFace
  split <;> rfl

/-- A move leaves the nonces as they are, or takes in an interest. -/
theorem nonces_of_move (hm : Move r s) :
    s.nonces = r.nonces ∨ ∃ key interest, s = (r.handleInterest key interest).2 := by
  cases hm with
  | interest _ _ => exact .inr ⟨_, _, rfl⟩
  | content _ _ => exact .inl (nonces_handleContent r _ _)
  | @publish _ _ packet _ _ hs =>
    have hstored := nonces_store r packet { pinned := true }
    rw [hs] at hstored
    exact .inl ((nonces_servePending _ packet).trans hstored)
  | @refuse _ _ packet _ _ hs =>
    have hstored := nonces_store r packet { pinned := true }
    rw [hs] at hstored
    exact .inl hstored
  | removeFace => exact .inl (nonces_removeFace r _)
  | ageContents => exact .inl (nonces_of_tables (tables_logAll _ _) :)
  | ageInterests => exact .inl (nonces_ageInterests r)
  | clearToSend => exact .inl (nonces_of_tables (tables_of_still (clearToSend_still r _)))
  | armAgeing =>
    obtain ⟨timer, htables⟩ := tables_armAgeing r
    exact .inl (nonces_of_tables htables :)
  | stop => exact .inl (nonces_of_tables (tables_stop r) :)
  | log | fragment | removeContent | setCacheLimit | newFace | flagFace | newApplicationFace | hear
    | newInterface | pace | newRoute | removeRoute | nextNonce | disarm | clock | expire =>
    exact .inl rfl

theorem sound_nonces_of_move (h : r.nonces.Sound) (hm : Move r s) :
    s.nonces.Sound ∧ s.nonces.capacity = r.nonces.capacity := by
  rcases nonces_of_move hm with hsame | ⟨key, interest, rfl⟩
  · rw [hsame]
    exact ⟨h, rfl⟩
  · rw [nonces_handleInterest, recordNonce]
    split
    · exact ⟨h, rfl⟩
    · exact ⟨h.record _ _, NonceTable.capacity_record _ _ _⟩

/-- The nonces are sound throughout a run, with room for as many as the configuration says. -/
theorem ReachableUnder.nonces {c : Config} (h : ReachableUnder c r) :
    r.nonces.Sound ∧ r.nonces.capacity = c.maxNonces := by
  obtain ⟨now, digest, grants, hmoves⟩ := h.moves
  clear h
  induction hmoves with
  | refl => exact ⟨NonceTable.sound_empty c.maxNonces, rfl⟩
  | tail _ hm ih =>
    obtain ⟨hsound, hcapacity⟩ := sound_nonces_of_move ih.1 hm
    exact ⟨hsound, hcapacity.trans ih.2⟩

/-! ## All tables -/

/-- In every reachable state no table holds anything twice. No two pending interests are the same, no
    two routes have the same name, no two contents the same suite and bytes, no two faces the same
    interface and address, and no nonce is remembered twice for its suite. And no more nonces are
    remembered than the configuration says. -/
theorem tables_hold_once {c : Config} (h : ReachableUnder c r) :
    (∀ key e k d, r.pending.get? key = some e → r.pending.get? k = some d →
      e.packet.suite.sameInterest e.packet d.packet = true → key = k) ∧
    r.routes.names.Nodup ∧
    (∀ key e k d, r.contents.get? key = some e → r.contents.get? k = some d →
      e.packet.suite = d.packet.suite → e.packet.bytes = d.packet.bytes → key = k) ∧
    (∀ key f k g, r.face? key = some f → r.face? k = some g →
      f.interface = g.interface → f.address = g.address → key = k) ∧
    r.nonces.nonces.Nodup ∧ r.nonces.size ≤ c.maxNonces := by
  have hvisited := h.reachable.visited
  obtain ⟨hnonces, hcapacity⟩ := h.nonces
  refine ⟨hvisited.apart.distinct, hvisited.nodup_names, fun key e k d he hd hsuite hbytes => ?_,
    fun key f k g hf hg => hvisited.key_eq_of_place hf hg, hnonces.nodup, ?_⟩
  · exact h.reachable.distinct key e k d he hd (Packet.sameBytes_iff.2 ⟨hsuite, hbytes⟩)
  · rw [← hcapacity]
    exact hnonces.bounded

/-- Under a configuration with room for one nonce, two interests come in, one of them twice over. -/
def repeatedCalls : List Call :=
  [.addInterface (.path "own") 0 {}, .addFace 0 (.path "next") {}, .addFace 0 (.path "next") {},
    .addRoute ⟨.ndn, [[97]], none, .none⟩ .ndn (.face ⟨0, 0⟩),
    .addRoute ⟨.ndn, [[97]], none, .none⟩ .ndn .tap,
    .receive 0 [5, 11, 7, 3, 8, 1, 97, 10, 4, 0, 0, 0, 1] (.path "first"),
    .receive 0 [5, 14, 7, 6, 8, 1, 97, 8, 1, 98, 10, 4, 0, 0, 0, 2] (.path "first"),
    .receive 0 [5, 11, 7, 3, 8, 1, 97, 10, 4, 0, 0, 0, 3] (.path "second")]

/-- There are two entries for the three interests, one route, two faces and a sender's, and one
    nonce. -/
theorem repeated_held_once :
    let c : Config := { maxNonces := 1 }
    let r := (withLimits (Host.fresh ⟨0⟩ (fun _ => none) fun _ => true) c).performAll repeatedCalls
    ReachableUnder c r ∧ r.pending.size = 2 ∧ r.faces.size = 3 ∧ r.routes.names.length = 1 ∧
      r.routes.names.Nodup ∧ r.nonces.nonces.Nodup ∧ r.nonces.size ≤ 1 := by
  have hreachable := (ReachableUnder.configured ⟨0⟩ (fun _ => none) (fun _ => true)
    (c := { maxNonces := 1 }) rfl).performAll repeatedCalls
  obtain ⟨-, hnames, -, -, hnodup, hbounded⟩ := tables_hold_once hreachable
  exact ⟨hreachable, by decide +kernel, by decide +kernel, by decide +kernel, hnames, hnodup,
    hbounded⟩

end Relay

end NameRelay
