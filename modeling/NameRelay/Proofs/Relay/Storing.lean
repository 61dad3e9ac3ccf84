-- SUMMARY: What calls do to the content store.
import NameRelay.Proofs.Relay.Delivery
import NameRelay.Proofs.Relay.Standing
import NameRelay.Proofs.Table.Pinned

/-!
# What happens to the store

Interests are answered from the store, contents are put in when they arrive and when they are
published, the sweep ages what is there, and the limit is set. `StoreChanges` forgets the rest of
the relay: whatever a call does to the store is a sequence of such changes, unless it removes
contents by name.
-/

namespace NameRelay

namespace Relay

/-! ## What calls do to the store -/

/-- Changes lead from the store of one state to that of another. -/
def StoreChanges (r s : Relay) : Prop := ContentStore.Changes r.contents s.contents

namespace StoreChanges

variable {r s t : Relay}

theorem of_eq (h : s.contents = r.contents) : StoreChanges r s := by
  unfold StoreChanges
  rw [h]

theorem single (h : ContentStore.Change r.contents s.contents) : StoreChanges r s :=
  Relation.ReflTransGen.single h

theorem of_tables (h : s.tables = r.tables) : StoreChanges r s := of_eq (contents_of_tables h)

theorem trans (h : StoreChanges r s) (h' : StoreChanges s t) : StoreChanges r t :=
  Relation.ReflTransGen.trans h h'

/-- Something that leaves the store alone may come in front. -/
theorem after (h : StoreChanges s t) (hs : s.contents = r.contents) : StoreChanges r t :=
  (of_eq hs).trans h

theorem log (r : Relay) (level : LogLevel) (text : String) : StoreChanges r (r.log level text) :=
  of_eq rfl

theorem store (r : Relay) (content : Packet) (flags : ContentFlags) :
    StoreChanges r (r.store content flags).2 := by
  refine single ?_
  rw [contents_store]
  exact .insert r.contents content flags r.now

theorem servePending (r : Relay) (content : Packet) : StoreChanges r (r.servePending content).2 :=
  of_eq (contents_servePending r content)

theorem propagate (r : Relay) (key : InterestKey) : StoreChanges r (r.propagate key).2 :=
  of_eq (contents_of_tables (tables_propagate r key) :)

theorem answerFromStore (r : Relay) (origin : FaceKey) (interest : Packet) (key : ContentKey) :
    StoreChanges r (r.answerFromStore origin interest key).2 := by
  have htouched : StoreChanges r { r with contents := r.contents.touch key r.now } :=
    single (.touch r.contents key r.now)
  unfold Relay.answerFromStore
  dsimp only
  split
  · exact htouched
  · exact htouched.trans (of_tables ((tables_serve _ _ _).trans (tables_of_still (log_still _ _ _))))

theorem handleInterest (r : Relay) (origin : FaceKey) (interest : Packet) :
    StoreChanges r (r.handleInterest origin interest).2 := by
  have hrecorded : StoreChanges r (r.recordNonce interest).2 := by
    obtain ⟨nonces, hnonces⟩ := recordNonce_eq r interest
    rw [hnonces]
    exact of_eq rfl
  unfold Relay.handleInterest
  split
  · rename_i s hs
    rwa [hs] at hrecorded
  · rename_i s hs
    rw [hs] at hrecorded
    refine hrecorded.trans ?_
    split
    · exact answerFromStore s origin interest _
    · split
      · rename_i key _
        unfold joinPending
        dsimp only
        split
        · exact (propagate _ key).after rfl
        · exact of_eq rfl
      · unfold startPending
        dsimp only
        split
        · exact (propagate _ _).after rfl
        · exact of_eq rfl

theorem handleContent (r : Relay) (origin : FaceKey) (content : Packet) :
    StoreChanges r (r.handleContent origin content).2 := by
  have hserved := servePending r content
  unfold Relay.handleContent
  split
  · exact of_eq rfl
  · split
    · rename_i hs
      rwa [hs] at hserved
    · rename_i s _ hs
      rw [hs] at hserved
      split
      · exact hserved.trans (store s content {})
      · exact hserved

theorem collect (r : Relay) (key : FaceKey) (packet : Packet) :
    StoreChanges r (r.collect key packet).2 := by
  unfold Relay.collect
  split
  · exact of_eq rfl
  · exact (of_tables (tables_logAll _ _)).after rfl

theorem acrossPackets : AcrossPackets StoreChanges where
  refl _ := of_eq rfl
  trans := trans
  record _ _ := of_eq rfl
  interest := handleInterest
  content := handleContent
  collect := collect

theorem addInterface (r : Relay) (address : FaceAddress) (mtu : Nat) (flags : FaceFlags) :
    StoreChanges r (r.addInterface address mtu flags).2 := by
  unfold Relay.addInterface
  dsimp only
  split <;> exact of_eq rfl

theorem setPacing (r : Relay) (index : Nat) (pacing : Option Nat) :
    StoreChanges r (r.setPacing index pacing).2 := by
  unfold Relay.setPacing
  split <;> exact of_eq rfl

theorem addRoute (r : Relay) (name : Name) (suite : Suite) (destination : Destination) :
    StoreChanges r (r.addRoute name suite destination).2 := by
  unfold Relay.addRoute
  split
  · exact of_eq rfl
  · dsimp only
    split
    all_goals
      split <;> exact of_eq rfl

theorem addFace (r : Relay) (index : Nat) (address : FaceAddress) (flags : FaceFlags) :
    StoreChanges r (r.addFace index address flags).2 := by
  unfold Relay.addFace
  split
  · exact of_eq rfl
  · split <;> exact of_eq rfl

theorem faceFor (r : Relay) (index : Nat) (address : FaceAddress) :
    StoreChanges r (r.faceFor index address).2 := by
  unfold Relay.faceFor
  split
  · exact of_eq rfl
  · exact addFace r index address {}

theorem sender (r : Relay) (index : Nat) (source : FaceAddress) :
    StoreChanges r (r.sender index source).2 := by
  have hface := faceFor r index source
  unfold Relay.sender
  split
  · rename_i hs
    rwa [hs] at hface
  · rename_i hs
    rw [hs] at hface
    exact hface

theorem applicationFace (r : Relay) : StoreChanges r r.applicationFace.2 := by
  unfold Relay.applicationFace
  split <;> exact of_eq rfl

theorem publishPackets (r : Relay) (packets : List Packet) :
    StoreChanges r (r.publishPackets packets).2 := by
  induction packets generalizing r with
  | nil => exact of_eq rfl
  | cons packet packets ih =>
    have hstored := store r packet { pinned := true }
    unfold Relay.publishPackets
    split
    · rename_i hs
      rwa [hs] at hstored
    · rename_i s hs
      rw [hs] at hstored
      exact (hstored.trans (servePending s packet)).trans (ih _)

theorem addContent (r : Relay) (p : Publication) : StoreChanges r (r.addContent p).2 := by
  unfold Relay.addContent
  split
  · exact of_eq rfl
  · rename_i packets _
    have hpublished := publishPackets r packets
    split
    · rename_i hs
      rwa [hs] at hpublished
    · rename_i hs
      rw [hs] at hpublished
      exact hpublished

theorem request (r : Relay) (name : Name) (chunk : Option UInt32) :
    StoreChanges r (r.request name chunk).2 := by
  unfold Relay.request
  split
  · exact of_eq rfl
  · dsimp only
    split
    · exact of_eq rfl
    · exact ((applicationFace _).trans (handleInterest _ _ _)).after rfl

theorem removeFace (r : Relay) (key : FaceKey) : StoreChanges r (r.removeFace key).2 := by
  unfold Relay.removeFace
  split <;> exact of_eq rfl

theorem foldl {α : Type} {f : Relay → α → Relay} (hf : ∀ r a, StoreChanges r (f r a)) (r : Relay)
    (items : List α) : StoreChanges r (items.foldl f r) :=
  List.foldlRecOn (motive := StoreChanges r) items f (of_eq rfl) fun s hs a _ => hs.trans (hf s a)

/-- The sweep drops contents that are not pinned, and marks others as stale. -/
theorem ageContents (r : Relay) : StoreChanges r r.ageContents := by
  have hexpired : StoreChanges r
      ({ r with contents := (r.contents.expire r.isExpiredContent).2 } : Relay) :=
    single (.expire r.contents fun e hpinned => by simp [isExpiredContent, hpinned])
  have hmarked : ∀ s : Relay, StoreChanges s s.markStale := fun s =>
    single (.mark s.contents fun e => by split <;> exact ⟨rfl, rfl⟩)
  exact (hexpired.trans (of_tables (tables_logAll _ _))).trans (hmarked _)

theorem ageInterests (r : Relay) : StoreChanges r r.ageInterests := by
  have hretransmit : ∀ (s : Relay) (key : InterestKey), StoreChanges s (s.retransmit key) := by
    intro s key
    have hsent := propagate s key
    rcases retransmit_cases s key with heq | heq <;> rw [heq]
    · exact hsent
    · exact hsent
  unfold Relay.ageInterests
  dsimp only
  refine StoreChanges.trans ?_ (foldl hretransmit _ _)
  exact (of_tables (tables_logAll _ _)).after rfl

theorem armAgeing (r : Relay) : StoreChanges r r.armAgeing.2 := by
  obtain ⟨timer, htables⟩ := tables_armAgeing r
  exact of_eq (contents_of_tables htables :)

theorem onTimer (r : Relay) (event : TimerEvent) : StoreChanges r (r.onTimer event) := by
  cases event with
  | clearToSend index => exact of_tables (tables_of_still (clearToSend_still r index))
  | ageing =>
    have hstart : StoreChanges r { r with ageingTimer := none } := of_eq rfl
    have hfaces : ∀ s : Relay, StoreChanges s s.ageFaces := fun s =>
      foldl (fun s key => removeFace s key) s _
    have hswept : StoreChanges r ({ r with ageingTimer := none } : Relay).age :=
      ((hstart.trans (ageContents _)).trans (ageInterests _)).trans (hfaces _)
    have harmed := hswept.trans (armAgeing _)
    rcases onTimer_ageing_cases r rfl with hs | ⟨text, hs⟩ <;> rw [hs]
    · exact harmed
    · exact harmed.trans (log _ _ _)

theorem start (r : Relay) : StoreChanges r r.start.2 := by
  obtain ⟨s, hs, hend⟩ := start_cases r
  have harmed : StoreChanges r s := by
    rcases hs with rfl | rfl
    · exact of_eq rfl
    · exact armAgeing r
  rcases hend with heq | ⟨text, heq⟩ <;> rw [heq]
  · exact harmed
  · exact harmed.trans (log s _ _)

/-- Every call changes the store in these ways, unless it removes contents by name. -/
theorem perform (r : Relay) {c : Call} (h : ∀ name, c ≠ .removeContent name) :
    StoreChanges r (r.perform c) := by
  cases c with
  | addInterface address mtu flags => exact addInterface r address mtu flags
  | setPacing index pacing => exact setPacing r index pacing
  | addFace index address flags => exact addFace r index address flags
  | faceFor index address => exact faceFor r index address
  | applicationFace => exact applicationFace r
  | removeFace key => exact removeFace r key
  | addRoute name suite destination => exact addRoute r name suite destination
  | removeRoute name suite =>
    unfold Relay.perform Relay.removeRoute
    dsimp only
    split <;> exact of_eq rfl
  | addContent p => exact addContent r p
  | removeContent name => exact (h name rfl).elim
  | setCacheLimit limit => exact single (.setLimit r.contents limit)
  | request name chunk => exact request r name chunk
  | receive index bytes source => exact acrossPackets.receive sender r index bytes source
  | start => exact start r
  | stop => exact of_eq (contents_of_tables (tables_stop r) :)
  | onTimer event => exact onTimer r event
  | clock now => exact of_eq rfl
  | expire event =>
    unfold Relay.perform
    dsimp only
    split <;> exact of_eq rfl

end StoreChanges

end Relay

end NameRelay
