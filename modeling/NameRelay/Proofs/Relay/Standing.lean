-- SUMMARY: Interests and contents change the tables of packets and nothing else that stands.
import NameRelay.Proofs.Relay.Tables

/-!
# What stands while packets are handled

An interest is answered, joined to another or left to wait, and a content is served and kept. All of
this happens in the tables of packets: pending interests, contents and nonces. Faces, interfaces,
routes, limits and the clock stand, apart from what deliveries leave at a face, which no table shows.
`Relay.standing` is the relay without its tables of packets.
-/

namespace NameRelay

namespace Relay

/-- The relay without its tables of packets, and without what deliveries leave. -/
def standing (r : Relay) : Relay :=
  { r.tables with pending := .empty, contents := .empty 0, nonces := .empty 0 }

theorem standing_of_tables {r s : Relay} (h : s.tables = r.tables) : s.standing = r.standing := by
  rw [standing, standing, h]

@[simp] theorem standing_log (r : Relay) (level : LogLevel) (text : String) :
    (r.log level text).standing = r.standing :=
  standing_of_tables (tables_of_still (log_still r level text))

@[simp] theorem standing_logAll (r : Relay) (records : List LogRecord) :
    (r.logAll records).standing = r.standing := standing_of_tables (tables_logAll r records)

/-! ## Interests -/

theorem recordNonce_eq (r : Relay) (interest : Packet) :
    ∃ nonces, (r.recordNonce interest).2 = { r with nonces } := by
  unfold recordNonce
  split
  · exact ⟨r.nonces, rfl⟩
  · exact ⟨_, rfl⟩

theorem standing_recordNonce (r : Relay) (interest : Packet) :
    (r.recordNonce interest).2.standing = r.standing := by
  unfold recordNonce
  split <;> rfl

theorem standing_answerFromStore (r : Relay) (origin : FaceKey) (interest : Packet)
    (key : ContentKey) : (r.answerFromStore origin interest key).2.standing = r.standing := by
  unfold answerFromStore
  dsimp only
  split
  · rfl
  · exact (standing_of_tables (tables_serve _ _ _)).trans (standing_log _ _ _)

theorem pending_answerFromStore (r : Relay) (origin : FaceKey) (interest : Packet)
    (key : ContentKey) : (r.answerFromStore origin interest key).2.pending = r.pending := by
  unfold answerFromStore
  dsimp only
  split
  · rfl
  · exact (pending_of_tables (tables_serve _ _ _) :)

theorem standing_propagate (r : Relay) (key : InterestKey) :
    (r.propagate key).2.standing = r.standing := (standing_of_tables (tables_propagate r key) :)

theorem standing_joinPending (r : Relay) (origin : FaceKey) (key : InterestKey) :
    (r.joinPending origin key).standing = r.standing := by
  unfold joinPending
  dsimp only
  split
  · exact standing_propagate _ _
  · rfl

theorem standing_startPending (r : Relay) (origin : FaceKey) (interest : Packet) :
    (r.startPending origin interest).standing = r.standing := by
  unfold startPending
  dsimp only
  split
  · exact standing_propagate _ _
  · rfl

theorem standing_handleInterest (r : Relay) (origin : FaceKey) (interest : Packet) :
    (r.handleInterest origin interest).2.standing = r.standing := by
  have hrecorded := standing_recordNonce r interest
  unfold handleInterest
  split
  · rename_i s hs
    rw [hs] at hrecorded
    exact hrecorded
  · rename_i s hs
    rw [hs] at hrecorded
    split
    · exact (standing_answerFromStore s origin interest _).trans hrecorded
    · split
      · exact (standing_joinPending s origin _).trans hrecorded
      · exact (standing_startPending s origin interest).trans hrecorded

/-! ## Contents -/

theorem standing_store (r : Relay) (content : Packet) (flags : ContentFlags) :
    (r.store content flags).2.standing = r.standing := by
  rw [store_snd]
  exact standing_logAll _ _

theorem standing_servePending (r : Relay) (content : Packet) :
    (r.servePending content).2.standing = r.standing :=
  (standing_of_tables (tables_servePending r content) :)

theorem standing_handleContent (r : Relay) (origin : FaceKey) (content : Packet) :
    (r.handleContent origin content).2.standing = r.standing := by
  have hserved := standing_servePending r content
  unfold handleContent
  split
  · rfl
  · split
    · rename_i s hs
      rw [hs] at hserved
      exact (standing_log s _ _).trans hserved
    · rename_i n s _ hs
      rw [hs] at hserved
      split
      · exact (standing_store s content {}).trans hserved
      · exact hserved

/-! ## The sweep -/

theorem standing_ageContents (r : Relay) : r.ageContents.standing = r.standing :=
  (standing_logAll _ _ :)

theorem pending_ageContents (r : Relay) : r.ageContents.pending = r.pending :=
  (pending_of_tables (tables_logAll _ _) :)

theorem standing_retransmit (r : Relay) (key : InterestKey) :
    (r.retransmit key).standing = r.standing := by
  rcases retransmit_cases r key with heq | heq <;> rw [heq]
  · exact standing_propagate r key
  · exact (standing_propagate r key :)

theorem standing_ageInterests (r : Relay) : r.ageInterests.standing = r.standing := by
  have hfold (keys : List InterestKey) (s : Relay) :
      (keys.foldl retransmit s).standing = s.standing :=
    List.foldlRecOn (motive := fun t => t.standing = s.standing) keys retransmit rfl
      fun t ht key _ => (standing_retransmit t key).trans ht
  exact (hfold _ _).trans (standing_logAll _ _)

/-! ## What the standing relay shows -/

section

variable {r s : Relay}

theorem faces_of_standing (h : s.standing = r.standing) :
    s.faces.mapEntries Face.unmarked = r.faces.mapEntries Face.unmarked :=
  (congrArg Relay.faces h :)

theorem now_of_standing (h : s.standing = r.standing) : s.now = r.now :=
  (congrArg Relay.now h :)

theorem timeouts_of_standing (h : s.standing = r.standing) : s.timeouts = r.timeouts :=
  (congrArg Relay.timeouts h :)

theorem routes_of_standing (h : s.standing = r.standing) : s.routes = r.routes :=
  (congrArg Relay.routes h :)

end

end Relay

end NameRelay
