-- SUMMARY: Calls act on faces, rings and timers in a few ways only.
import NameRelay.Proofs.Relay.Run
import NameRelay.Proofs.Relay.Tables

/-!
# Links

Most of what a call does has nothing to do with sending. `Relay.links` forgets all of that: tables,
marks, history, and what goes up to the application. What is left of a call is a sequence of acts: a
packet is queued for a face, or faces and interfaces come, go and change. Where a packet is answered,
passed on or published only the first happens. The calls are walked through once, here. What holds of
the links of a relay and is kept by every act is kept by every call, those apart that are about
timers.
-/

namespace NameRelay

/-! ## The links of a relay -/

/-- Whether an effect is a transmission or about a timer. -/
def Effect.isOutward : Effect → Bool
  | .send _ _ _ | .timerArmed _ | .timerRefused _ _ | .timerCancelled _ => true
  | .deliver _ _ _ | .tap _ _ | .log _ => false

/-- Whether a call is about timers. -/
def Call.isTimed : Call → Bool
  | .start | .stop | .onTimer _ | .expire _ => true
  | _ => false

/-- The face without what plays no part in sending. -/
def Face.link (f : Face) : Face := { f with flags := {}, lastUsed := ⟨0⟩, reassembler := .idle }

/-- The host without its clock and without what went up. -/
def Host.outward (h : Host) : Host :=
  { h with now := ⟨0⟩, effects := h.effects.filter Effect.isOutward }

namespace Relay

/-- The relay as far as its links go. -/
def links (r : Relay) : Relay :=
  { r with
    host := r.host.outward
    faces := r.faces.mapEntries Face.link
    pending := .empty
    routes := .empty
    contents := .empty 0
    nonces := .empty 0
    localFace := none
    nonceSeed := 0
    history := [] }

/-- One thing that happens to the links of a relay, or nothing at all. -/
inductive Act : Relay → Relay → Prop where
  | quiet {r s : Relay} (h : s.links = r.links) : Act r s
  | enqueue (r : Relay) (key : FaceKey) (suite : Suite) (bytes : Bytes) :
      Act r (r.enqueue key suite bytes).2
  | newFace {r : Relay} {index : Nat} {interface : Interface}
      (h : r.interfaces[index]? = some interface) (address : FaceAddress) (flags : FaceFlags) :
      Act r { r with faces :=
        (r.faces.insert (.fresh (some index) address flags interface.mtu r.now)).2 }
  | newApplicationFace (r : Relay) (flags : FaceFlags) :
      Act r { r with faces := (r.faces.insert (.fresh none .application flags 0 r.now)).2 }
  | removeFace (r : Relay) (key : FaceKey) : Act r (r.removeFace key).2
  | newInterface (r : Relay) (address : FaceAddress) (mtu : Nat) (flags : FaceFlags) :
      Act r { r with interfaces := r.interfaces ++ [.fresh address mtu flags] }
  | pace (r : Relay) (index : Nat) (pacing : Option Nat) :
      Act r (r.modifyInterface index fun i => { i with pacing })

/-- Acts lead from one state to another. -/
inductive Acts : Relay → Relay → Prop where
  | refl (r : Relay) : Acts r r
  | tail {r s t : Relay} (h : Acts r s) (hact : Act s t) : Acts r t

namespace Acts

variable {r s t : Relay}

theorem single (h : Act r s) : Acts r s := .tail (.refl r) h

theorem quiet (h : s.links = r.links) : Acts r s := .single (.quiet h)

theorem trans (h : Acts r s) (h' : Acts s t) : Acts r t := by
  induction h' with
  | refl => exact h
  | tail _ hact ih => exact ih.tail hact

/-- An operation that ends in `s` leads there. -/
theorem of_eq {α : Type} {x : α × Relay} {a : α} (h : Acts r x.2) (hs : x = (a, s)) : Acts r s := by
  rw [hs] at h
  exact h

end Acts

/-- Packets are queued for faces, one after the other, and nothing else happens to the links. -/
inductive Offers : Relay → Relay → Prop where
  | refl (r : Relay) : Offers r r
  /-- Something quiet may come behind. -/
  | quietly {r s t : Relay} (h : Offers r s) (hlinks : t.links = s.links) : Offers r t
  | enqueue {r s : Relay} (h : Offers r s) (key : FaceKey) (suite : Suite) (bytes : Bytes) :
      Offers r (s.enqueue key suite bytes).2

namespace Offers

variable {r s t : Relay}

theorem quiet (h : s.links = r.links) : Offers r s := .quietly (.refl r) h

theorem single (r : Relay) (key : FaceKey) (suite : Suite) (bytes : Bytes) :
    Offers r (r.enqueue key suite bytes).2 := .enqueue (.refl r) key suite bytes

theorem trans (h : Offers r s) (h' : Offers s t) : Offers r t := by
  induction h' with
  | refl => exact h
  | quietly _ hlinks ih => exact ih.quietly hlinks
  | enqueue _ key suite bytes ih => exact ih.enqueue key suite bytes

/-- Something quiet may come in front. -/
theorem after (h : Offers s t) (h' : s.links = r.links) : Offers r t := (quiet h').trans h

/-- An operation that ends in `s` leads there. -/
theorem of_eq {α : Type} {x : α × Relay} {a : α} (h : Offers r x.2) (hs : x = (a, s)) :
    Offers r s := by
  rw [hs] at h
  exact h

theorem foldl {α : Type} {f : Relay → α → Relay} (hf : ∀ r a, Offers r (f r a)) (r : Relay)
    (items : List α) : Offers r (items.foldl f r) :=
  List.foldlRecOn (motive := Offers r) items f (.refl r) fun s hs a _ => hs.trans (hf s a)

end Offers

/-! ## Quiet operations -/

theorem links_emit (r : Relay) {e : Effect} (h : e.isOutward = false) :
    (r.emit e).links = r.links := by
  simp [links, emit, Host.outward, Host.emit, List.filter_append, h]

theorem links_note (r : Relay) (deed : Deed) : (r.note deed).links = r.links := rfl

theorem links_log (r : Relay) (level : LogLevel) (text : String) :
    (r.log level text).links = r.links := links_emit r rfl

theorem links_logAll (r : Relay) (records : List LogRecord) : (r.logAll records).links = r.links := by
  induction records generalizing r with
  | nil => rfl
  | cons record records ih => exact (ih _).trans (links_emit r rfl)

/-- Changing what the links do not show of a face changes none. -/
theorem links_modifyFace (r : Relay) (key : FaceKey) (g : Face → Face)
    (h : ∀ f, (g f).link = f.link) : (r.modifyFace key g).links = r.links := by
  have hfaces : (r.faces.modify key g).mapEntries Face.link = r.faces.mapEntries Face.link :=
    Slots.mapEntries_modify fun f _ => h f
  simp only [links, modifyFace, hfaces]

theorem links_endRound (r : Relay) : r.endRound.links = r.links := by
  have hfaces : (r.faces.mapEntries fun f =>
      { f with flags := { f.flags with served := false } }).mapEntries Face.link =
        r.faces.mapEntries Face.link := by
    rw [Slots.mapEntries_mapEntries]
    rfl
  simp only [links, endRound, hfaces]

theorem links_store (r : Relay) (content : Packet) (flags : ContentFlags) :
    (r.store content flags).2.links = r.links := by
  rw [store_snd]
  exact links_logAll _ _

theorem links_recordNonce (r : Relay) (interest : Packet) :
    (r.recordNonce interest).2.links = r.links := by
  unfold recordNonce
  split <;> rfl

theorem links_ageContents (r : Relay) : r.ageContents.links = r.links :=
  links_logAll { r with contents := (r.contents.expire r.isExpiredContent).2 } _

theorem links_collect (r : Relay) (key : FaceKey) (packet : Packet) :
    (r.collect key packet).2.links = r.links := by
  unfold collect
  split
  · rfl
  · exact (links_logAll _ _).trans (links_modifyFace r key _ fun _ => rfl)

theorem links_addRoute (r : Relay) (name : Name) (suite : Suite) (destination : Destination) :
    (r.addRoute name suite destination).2.links = r.links := by
  unfold addRoute
  split
  · rfl
  · dsimp only
    split
    all_goals
      split
      · exact links_log r _ _
      · rfl

theorem links_removeRoute (r : Relay) (name : Name) (suite : Suite) :
    (r.removeRoute name suite).2.links = r.links := by
  unfold removeRoute
  split <;> rfl

/-! ## Contents -/

theorem offers_serve (r : Relay) (key : FaceKey) (content : Packet) :
    Offers r (r.serve key content).2 := by
  unfold serve
  split
  · exact .refl r
  · dsimp only
    split
    · split
      · exact .quiet (links_emit (r.note (.served content key)) rfl)
      · exact .quiet rfl
    · exact (Offers.single _ _ _ _).after rfl

theorem offers_serveOnce (r : Relay) (content : Packet) (key : FaceKey) :
    Offers r (r.serveOnce content key) := by
  unfold serveOnce
  split
  · exact .refl r
  · split
    · exact .refl r
    · have hmarked := links_modifyFace r key
        (fun f => { f with flags := { f.flags with served := true } }) fun _ => rfl
      have hserved := (offers_serve _ key content).after hmarked
      dsimp only
      split
      · rename_i hs
        exact hserved.of_eq hs
      · rename_i hs
        exact (hserved.of_eq hs).quietly (links_log _ _ _)

theorem offers_satisfy (r : Relay) (content : Packet) (key : InterestKey) :
    Offers r (r.satisfy content key) := by
  unfold satisfy
  split
  · exact .refl r
  · exact (Offers.foldl (offers_serveOnce · content) _ _).after rfl

theorem offers_servePending (r : Relay) (content : Packet) : Offers r (r.servePending content).2 :=
  (Offers.foldl (offers_satisfy · content) r _).quietly (links_endRound _)

theorem offers_handleContent (r : Relay) (origin : FaceKey) (content : Packet) :
    Offers r (r.handleContent origin content).2 := by
  have hserved := offers_servePending r content
  unfold handleContent
  split
  · exact .quiet (links_log _ _ _)
  · split
    · rename_i hs
      exact (hserved.of_eq hs).quietly (links_log _ _ _)
    · rename_i hs
      split
      · exact (hserved.of_eq hs).quietly (links_store _ _ _)
      · exact hserved.of_eq hs

/-! ## Interests -/

theorem offers_handOver (r : Relay) (interest : Packet) (name : Name) (origin : FaceKey)
    (reflects : Bool) (d : Destination) :
    Offers r (r.handOver interest name origin reflects d).2 := by
  cases d with
  | tap => exact .quiet (links_emit (r.note (.handed interest .tap)) rfl)
  | face key =>
    simp only [handOver]
    split
    · exact .refl r
    · split
      · exact .quiet (links_emit (r.note (.handed interest (.face key))) rfl)
      · have hqueued : Offers r ((r.note (.handed interest (.face key))).enqueue key interest.suite
            interest.bytes).2 := (Offers.single _ _ _ _).after rfl
        split
        · rename_i hs
          exact hqueued.of_eq hs
        · rename_i hs
          exact (hqueued.of_eq hs).quietly (links_log _ _ _)

theorem offers_handOverAll (r : Relay) (interest : Packet) (name : Name) (origin : FaceKey)
    (reflects : Bool) (ds : List Destination) :
    Offers r (r.handOverAll interest name origin reflects ds).2 := by
  induction ds generalizing r with
  | nil => exact .refl r
  | cons d ds ih => exact (offers_handOver r interest name origin reflects d).trans (ih _)

theorem offers_propagate (r : Relay) (key : InterestKey) : Offers r (r.propagate key).2 := by
  unfold propagate
  split
  · exact .refl r
  · dsimp only
    split
    · exact .quiet rfl
    · refine Offers.quietly (Offers.quietly ?_ (links_note _ _)) (links_log _ _ _)
      exact (offers_handOverAll _ _ _ _ _ _).after rfl

theorem offers_answerFromStore (r : Relay) (origin : FaceKey) (interest : Packet) (key : ContentKey) :
    Offers r (r.answerFromStore origin interest key).2 := by
  unfold answerFromStore
  dsimp only
  split
  · exact .quiet rfl
  · exact (offers_serve _ _ _).after (links_log { r with contents := r.contents.touch key r.now } _ _)

theorem offers_joinPending (r : Relay) (origin : FaceKey) (key : InterestKey) :
    Offers r (r.joinPending origin key) := by
  unfold joinPending
  dsimp only
  split
  · exact (offers_propagate _ _).after rfl
  · exact .quiet rfl

theorem offers_startPending (r : Relay) (origin : FaceKey) (interest : Packet) :
    Offers r (r.startPending origin interest) := by
  unfold startPending
  dsimp only
  split
  · exact (offers_propagate _ _).after rfl
  · exact .quiet (links_log { r with pending := (r.pending.insert (.fresh interest origin r.now)).2 } _ _)

theorem offers_handleInterest (r : Relay) (origin : FaceKey) (interest : Packet) :
    Offers r (r.handleInterest origin interest).2 := by
  have hrecorded : Offers r (r.recordNonce interest).2 := .quiet (links_recordNonce r interest)
  unfold handleInterest
  split
  · rename_i hs
    exact (hrecorded.of_eq hs).quietly (links_log _ _ _)
  · rename_i s hs
    refine (hrecorded.of_eq hs).trans ?_
    split
    · exact offers_answerFromStore s origin interest _
    · split
      · exact offers_joinPending s origin _
      · exact offers_startPending s origin interest

/-! ## The sweep -/

theorem offers_retransmit (r : Relay) (key : InterestKey) : Offers r (r.retransmit key) := by
  have hsent := offers_propagate r key
  rcases retransmit_cases r key with heq | heq <;> rw [heq]
  · exact hsent
  · exact hsent.quietly rfl

theorem offers_ageInterests (r : Relay) : Offers r r.ageInterests :=
  (Offers.foldl offers_retransmit _ _).after
    (links_logAll { r with pending := (r.pending.expire r.isExpiredInterest).2 } _)

/-! ## Publications -/

theorem offers_publishPackets (r : Relay) (packets : List Packet) :
    Offers r (r.publishPackets packets).2 := by
  induction packets generalizing r with
  | nil => exact .refl r
  | cons packet packets ih =>
    have hstored : Offers r (r.store packet { pinned := true }).2 := .quiet (links_store r _ _)
    unfold publishPackets
    split
    · rename_i hs
      exact hstored.of_eq hs
    · rename_i hs
      exact ((hstored.of_eq hs).trans (offers_servePending _ packet)).trans (ih _)

theorem offers_addContent (r : Relay) (p : Publication) : Offers r (r.addContent p).2 := by
  unfold addContent
  split
  · exact .refl r
  · have hpublished := offers_publishPackets r
    split
    · rename_i hs
      exact (hpublished _).of_eq hs
    · rename_i hs
      exact ((hpublished _).of_eq hs).quietly (links_log _ _ _)

/-! ## Walks

What holds across every act holds across every call. Most of it is said once for a relation between
states: pacing an interface is the one act that only a caller asks for, so the relation need not hold
across that. -/

/-- The relation holds across each act, though maybe not across a change of pacing. -/
structure AcrossActs (R : Relay → Relay → Prop) : Prop where
  quiet : ∀ {r s}, s.links = r.links → R r s
  trans : ∀ {r s t}, R r s → R s t → R r t
  enqueue : ∀ r key suite bytes, R r (enqueue r key suite bytes).2
  newFace : ∀ {r index interface}, r.interfaces[index]? = some interface → ∀ address flags,
    R r { r with faces := (r.faces.insert (.fresh (some index) address flags interface.mtu r.now)).2 }
  newApplicationFace : ∀ r flags,
    R r { r with faces := (r.faces.insert (.fresh none .application flags 0 r.now)).2 }
  removeFace : ∀ r key, R r (removeFace r key).2
  newInterface : ∀ r address mtu flags,
    R r { r with interfaces := r.interfaces ++ [.fresh address mtu flags] }

namespace AcrossActs

variable {R : Relay → Relay → Prop} (h : AcrossActs R)

include h

theorem refl (r : Relay) : R r r := h.quiet rfl

/-- Something quiet may come behind. -/
theorem quietly {r s t : Relay} (hs : R r s) (hquiet : t.links = s.links) : R r t :=
  h.trans hs (h.quiet hquiet)

theorem offers {r s : Relay} (hs : Offers r s) : R r s := by
  induction hs with
  | refl => exact h.refl r
  | quietly _ hlinks ih => exact h.quietly ih hlinks
  | enqueue _ key suite bytes ih => exact h.trans ih (h.enqueue _ key suite bytes)

theorem age (r : Relay) : R r r.age := by
  have hfaces (r : Relay) : R r r.ageFaces :=
    List.foldlRecOn (motive := R r) _ _ (h.refl r) fun s hs key _ => h.trans hs (h.removeFace s key)
  exact h.trans (h.trans (h.quiet (links_ageContents r)) (h.offers (offers_ageInterests _))) (hfaces _)

theorem addInterface (r : Relay) (address : FaceAddress) (mtu : Nat) (flags : FaceFlags) :
    R r (r.addInterface address mtu flags).2 := by
  unfold Relay.addInterface
  dsimp only
  split
  · exact h.refl r
  · exact h.trans (h.quiet (links_log r _ _)) (h.newInterface _ address mtu flags)

theorem addFace (r : Relay) (index : Nat) (address : FaceAddress) (flags : FaceFlags) :
    R r (r.addFace index address flags).2 := by
  unfold Relay.addFace
  split
  · exact h.refl r
  · rename_i interface hindex
    split
    · exact h.quiet (links_modifyFace r _ _ fun _ => rfl)
    · exact h.trans (h.quiet (links_log r _ _)) (h.newFace (r := r.log _ _) hindex address _)

theorem faceFor (r : Relay) (index : Nat) (address : FaceAddress) :
    R r (r.faceFor index address).2 := by
  unfold Relay.faceFor
  split
  · exact h.refl r
  · exact h.addFace r index address {}

theorem sender (r : Relay) (index : Nat) (source : FaceAddress) : R r (r.sender index source).2 := by
  have hface := h.faceFor r index source
  unfold Relay.sender
  split
  · rename_i hs
    rwa [hs] at hface
  · rename_i hs
    rw [hs] at hface
    exact h.quietly hface (links_modifyFace _ _ _ fun _ => rfl)

theorem applicationFace (r : Relay) : R r r.applicationFace.2 := by
  unfold Relay.applicationFace
  split
  · exact h.refl r
  · exact h.quietly (h.newApplicationFace r { pinned := true }) rfl

theorem acrossPackets : AcrossPackets R where
  refl := h.refl
  trans := h.trans
  record r _ := h.quiet (links_emit r rfl)
  interest r origin packet := h.offers (offers_handleInterest r origin packet)
  content r origin packet := h.offers (offers_handleContent r origin packet)
  collect r key packet := h.quiet (links_collect r key packet)

theorem request (r : Relay) (name : Name) (chunk : Option UInt32) : R r (r.request name chunk).2 := by
  unfold Relay.request
  split
  · exact h.refl r
  · dsimp only
    split
    · exact h.quiet rfl
    · have hnonce : R r r.nextNonce.2 := h.quiet rfl
      exact h.trans (h.trans hnonce (h.applicationFace _)) (h.offers (offers_handleInterest _ _ _))

/-- The relation holds across every call, unless it is about timers or paces an interface. -/
theorem perform (r : Relay) {c : Call} (htimed : c.isTimed = false)
    (hpace : ∀ index pacing, c ≠ .setPacing index pacing) : R r (r.perform c) := by
  cases c with
  | addInterface address mtu flags => exact h.addInterface r address mtu flags
  | setPacing index pacing => exact absurd rfl (hpace index pacing)
  | addFace index address flags => exact h.addFace r index address flags
  | faceFor index address => exact h.faceFor r index address
  | applicationFace => exact h.applicationFace r
  | removeFace key => exact h.removeFace r key
  | addRoute name suite destination => exact h.quiet (links_addRoute r name suite destination)
  | removeRoute name suite => exact h.quiet (links_removeRoute r name suite)
  | addContent p => exact h.offers (offers_addContent r p)
  | removeContent | setCacheLimit | clock => exact h.quiet rfl
  | request name chunk => exact h.request r name chunk
  | receive index bytes source => exact h.acrossPackets.receive h.sender r index bytes source
  | start | stop | onTimer | expire => cases htimed

end AcrossActs

/-! ## Calls and configurations -/

theorem acrossActs_acts : AcrossActs Acts where
  quiet := .quiet
  trans := .trans
  enqueue r key suite bytes := .single (.enqueue r key suite bytes)
  newFace hindex address flags := .single (.newFace hindex address flags)
  newApplicationFace r flags := .single (.newApplicationFace r flags)
  removeFace r key := .single (.removeFace r key)
  newInterface r address mtu flags := .single (.newInterface r address mtu flags)

theorem acts_age (r : Relay) : Acts r r.age := acrossActs_acts.age r

theorem acts_setPacing (r : Relay) (index : Nat) (pacing : Option Nat) :
    Acts r (r.setPacing index pacing).2 := by
  unfold setPacing
  split
  · exact .single (.pace r index pacing)
  · exact .refl r

/-- Every call acts on the links in these ways, unless it is about timers. -/
theorem acts_perform (r : Relay) {c : Call} (h : c.isTimed = false) : Acts r (r.perform c) := by
  by_cases hpace : ∃ index pacing, c = .setPacing index pacing
  · obtain ⟨index, pacing, rfl⟩ := hpace
    exact acts_setPacing r index pacing
  · exact acrossActs_acts.perform r h fun index pacing hc => hpace ⟨index, pacing, hc⟩

theorem acts_configured (host : Host) (c : Config) :
    Acts (withLimits host c) (configured host c).2 :=
  configured_related .refl .trans acrossActs_acts.addInterface acts_setPacing acrossActs_acts.addFace
    (fun r name suite destination => .quiet (links_addRoute r name suite destination)) host c

end Relay

end NameRelay
