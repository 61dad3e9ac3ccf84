-- SUMMARY: Every call is a sequence of moves, and what all moves keep holds throughout a run.
import Mathlib.Data.List.Induction
import Mathlib.Logic.Relation
import NameRelay.Proofs.Relay.Consistency
import NameRelay.Proofs.Relay.Run

/-!
# Moves

Calls share what they do: a content is served when it arrives and when it is published, a face is
torn down by request and by the sweep. A move is one such piece of work, done as a whole. The calls
are walked through once, here. Each is a sequence of moves, and so is the way to every state in
which a packet comes up. What holds of a new relay and is kept by every move therefore holds
throughout every run.
-/

namespace NameRelay

/-- Faces may be torn down: when that is asked for, and in the regular sweep. -/
def Call.TearsDown : Call → Prop
  | .removeFace _ | .onTimer .ageing => True
  | _ => False

/-- The clock may show another time. -/
def Call.TellsTime : Call → Prop
  | .clock _ => True
  | _ => False

namespace Relay

/-- A packet that the relay's own node may publish. -/
def Published (packet : Packet) : Prop :=
  ∃ (p : Publication) (packets : List Packet), p.packets = .ok packets ∧ packet ∈ packets

/-- One piece of work of a relay. Faces are torn down in it only if `down` holds, and only if `ticks`
    holds the clock shows another time. -/
inductive Work (down ticks : Prop) : Relay → Relay → Prop where
  /-- A record is left. -/
  | log (r : Relay) (record : LogRecord) : Work down ticks r (r.emit (.log record))
  /-- An interest is taken in, for a face that there is. -/
  | interest {r : Relay} {key : FaceKey} {interest : Packet} (h : Asked r key interest)
      (hkey : r.faces.contains key = true) : Work down ticks r (r.handleInterest key interest).2
  /-- A content is taken in. -/
  | content {onFragment : FragmentHandler} {r : Relay} {key : FaceKey} {packet : Packet}
      {name : Name} {payload : Option Span} (h : Handles onFragment r key packet)
      (hbody : packet.body = .message .content name payload) :
      Work down ticks r (r.handleContent key packet).2
  /-- A fragment is given to the reassembler of its face. -/
  | fragment {r : Relay} {key : FaceKey} {face : Face} (h : r.face? key = some face)
      (packet : Packet) :
      Work down ticks r (r.modifyFace key fun f =>
        { f with reassembler := (face.reassembler.accept packet).next })
  /-- A content of the own node is pinned and served. -/
  | publish {r s : Relay} {packet : Packet} {stored : Bool} (h : Published packet)
      (hs : r.store packet { pinned := true } = (.ok stored, s)) :
      Work down ticks r (s.servePending packet).2
  /-- A content of the own node finds no room. -/
  | refuse {r s : Relay} {packet : Packet} {e : RelayError} (h : Published packet)
      (hs : r.store packet { pinned := true } = (.error e, s)) : Work down ticks r s
  | removeContent (r : Relay) (name : Name) : Work down ticks r (r.removeContent name).2
  | setCacheLimit (r : Relay) (limit : Int) : Work down ticks r (r.setCacheLimit limit)
  /-- A face is made for an address that has none. -/
  | newFace {r : Relay} {index : Nat} {address : FaceAddress} {interface : Interface}
      (flags : FaceFlags) (hindex : r.interfaces[index]? = some interface)
      (hnew : r.findFace? index address = none) :
      Work down ticks r { r with faces := (r.faces.insert (.fresh (some index) address
        (flags.union interface.flags) interface.mtu r.now)).2 }
  /-- The face of an address gains flags. -/
  | flagFace {r : Relay} {index : Nat} {address : FaceAddress} {key : FaceKey}
      (h : r.findFace? index address = some key) (flags : FaceFlags) :
      Work down ticks r (r.modifyFace key fun f => { f with flags := f.flags.union flags })
  /-- The face that stands for the application is made. -/
  | newApplicationFace {r : Relay} (h : r.localFace.filter r.faces.contains = none) :
      Work down ticks r { r with
        faces := (r.faces.insert (.fresh none .application { pinned := true } 0 r.now)).2
        localFace := some
          (r.faces.insert (.fresh none .application { pinned := true } 0 r.now)).1 }
  /-- A face is heard of. -/
  | hear (r : Relay) (key : FaceKey) :
      Work down ticks r (r.modifyFace key fun f => { f with lastUsed := r.now })
  | removeFace (h : down) (r : Relay) (key : FaceKey) : Work down ticks r (r.removeFace key).2
  | newInterface {r : Relay} (h : r.interfaces.length < maxInterfaces) (address : FaceAddress)
      (mtu : Nat) (flags : FaceFlags) :
      Work down ticks r { r with interfaces := r.interfaces ++ [.fresh address mtu flags] }
  | pace (r : Relay) (index : Nat) (pacing : Option Nat) :
      Work down ticks r (r.modifyInterface index fun i => { i with pacing })
  /-- A route is set to a face that there is, or to the application. -/
  | newRoute {r : Relay} (name : Name) {destination : Destination}
      (h : ∀ key, destination = .face key → r.faces.contains key = true) :
      Work down ticks r { r with routes := (r.routes.insert name destination).2 }
  | removeRoute (r : Relay) (name : Name) :
      Work down ticks r { r with routes := (r.routes.remove name).2 }
  | nextNonce (r : Relay) : Work down ticks r r.nextNonce.2
  | ageContents (r : Relay) : Work down ticks r r.ageContents
  | ageInterests (r : Relay) : Work down ticks r r.ageInterests
  | clearToSend (r : Relay) (index : Nat) : Work down ticks r (r.clearToSend index)
  | armAgeing (r : Relay) : Work down ticks r r.armAgeing.2
  /-- The timer for the next sweep is gone. -/
  | disarm (r : Relay) : Work down ticks r { r with ageingTimer := none }
  | stop (r : Relay) : Work down ticks r r.stop
  | clock (h : ticks) (r : Relay) (now : Instant) :
      Work down ticks r { r with host := { r.host with now } }
  /-- A timer goes off. -/
  | expire {r : Relay} {event : TimerEvent} {handle : Nat} {host : Host}
      (h : r.host.expire? event = some (handle, host)) : Work down ticks r { r with host }

/-- Work leads from one state to another. -/
abbrev Works (down ticks : Prop) : Relay → Relay → Prop := Relation.ReflTransGen (Work down ticks)

/-- One piece of work, whatever it is. -/
abbrev Move : Relay → Relay → Prop := Work True True

/-- Moves lead from one state to another. -/
abbrev Moves : Relay → Relay → Prop := Works True True

theorem Work.move {down ticks : Prop} {r s : Relay} (h : Work down ticks r s) : Move r s := by
  cases h with
  | log => exact .log _ _
  | interest h hkey => exact .interest h hkey
  | content h hbody => exact .content h hbody
  | fragment h packet => exact .fragment h packet
  | publish h hs => exact .publish h hs
  | refuse h hs => exact .refuse h hs
  | removeContent => exact .removeContent _ _
  | setCacheLimit => exact .setCacheLimit _ _
  | newFace flags hindex hnew => exact .newFace flags hindex hnew
  | flagFace h flags => exact .flagFace h flags
  | newApplicationFace h => exact .newApplicationFace h
  | hear => exact .hear _ _
  | removeFace => exact .removeFace trivial _ _
  | newInterface h => exact .newInterface h _ _ _
  | pace => exact .pace _ _ _
  | newRoute name h => exact .newRoute name h
  | removeRoute => exact .removeRoute _ _
  | nextNonce => exact .nextNonce _
  | ageContents => exact .ageContents _
  | ageInterests => exact .ageInterests _
  | clearToSend => exact .clearToSend _ _
  | armAgeing => exact .armAgeing _
  | disarm => exact .disarm _
  | stop => exact .stop _
  | clock => exact .clock trivial _ _
  | expire h => exact .expire h

theorem Works.moves {down ticks : Prop} {r s : Relay} (h : Works down ticks r s) : Moves r s :=
  Relation.ReflTransGen.lift id (fun _ _ => Work.move) _ _ h

/-- Every move keeps a relay consistent. -/
theorem Consistent.move {r s : Relay} (h : r.Consistent) (hm : Move r s) : s.Consistent := by
  cases hm with
  | interest _ hkey => exact h.handleInterest hkey _
  | content _ _ => exact h.handleContent _ _
  | @publish _ _ packet _ _ hs =>
    have hstored := h.store packet { pinned := true }
    rw [hs] at hstored
    exact hstored.servePending packet
  | @refuse _ _ packet _ _ hs =>
    have hstored := h.store packet { pinned := true }
    rw [hs] at hstored
    exact hstored
  | fragment | flagFace | hear => exact h.modifyFace _ _
  | newFace => exact h.insertFace _
  | newApplicationFace => exact (h.insertFace _).congr rfl rfl
  | removeFace => exact h.removeFace _
  | ageContents => exact h.ageContents
  | ageInterests => exact h.ageInterests
  | clearToSend => exact h.of_tables (tables_of_still (clearToSend_still r _))
  | armAgeing => exact h.armAgeing
  | stop => exact h.stop
  | log | removeContent | setCacheLimit | newInterface | pace | newRoute | removeRoute | nextNonce
    | disarm | clock | expire => exact h.congr rfl rfl

theorem Consistent.moves {r s : Relay} (h : r.Consistent) (hm : Moves r s) : s.Consistent := by
  induction hm with
  | refl => exact h
  | tail _ hm ih => exact ih.move hm

/-- An operation that ends in `s` leads there. -/
theorem works_of_eq {down ticks : Prop} {α : Type} {r s : Relay} {x : α × Relay} {a : α}
    (h : Works down ticks r x.2) (hs : x = (a, s)) : Works down ticks r s := by
  rw [hs] at h
  exact h

/-! ## Packets of a buffer -/

/-- Work led from `r` to `s`, which knows the face. -/
structure Follows (down ticks : Prop) (r : Relay) (key : FaceKey) (s : Relay) : Prop where
  moves : Works down ticks r s
  knows : s.Knows key

namespace Follows

variable {down ticks : Prop} {r s t : Relay} {key : FaceKey}

theorem step (h : Follows down ticks r key s) (hm : Work down ticks s t) (hkey : t.faces.contains key = true) :
    Follows down ticks r key t :=
  ⟨h.moves.tail hm, h.knows.consistent.move hm.move, hkey⟩

theorem log (h : Follows down ticks r key s) (level : LogLevel) (text : String) :
    Follows down ticks r key (s.log level text) :=
  h.step (.log s ⟨level, text⟩) h.knows.face

theorem logAll (h : Follows down ticks r key s) (records : List LogRecord) :
    Follows down ticks r key (s.logAll records) := by
  induction records generalizing s with
  | nil => exact h
  | cons record records ih => exact ih (h.step (.log s record) h.knows.face)

theorem announce (h : Follows down ticks r key s) (packet : Packet) :
    Follows down ticks r key (s.announce key packet) :=
  (h.logAll _).log _ _

variable {onFragment : FragmentHandler} {packet : Packet}

theorem handlePacket (h : Follows down ticks r key s) (harrives : Handles onFragment s key packet)
    (hfragment : ∀ {header piece}, packet.body = .fragment header piece →
      Follows down ticks r key (onFragment s key packet).2) :
    Follows down ticks r key (handlePacket onFragment key s packet).2 := by
  unfold Relay.handlePacket
  split
  · rename_i hbody
    unfold handleHop
    split
    · rename_i lowered hhop
      exact h.step (.interest (.received harrives hbody hhop) h.knows.face)
        ((SameFaces.of_standing (standing_handleInterest s key lowered)).contains h.knows.face)
    · exact h.log _ _
  · rename_i hbody
    exact h.step (.content harrives hbody)
      ((SameFaces.of_standing (standing_handleContent s key packet)).contains h.knows.face)
  · exact h.log _ _
  · rename_i hbody
    exact hfragment hbody

theorem dispatch (h : Follows down ticks r key s)
    (harrives : Handles onFragment (s.announce key packet) key packet)
    (hfragment : ∀ {t packet header piece}, Follows down ticks r key t →
      Handles onFragment t key packet → packet.body = .fragment header piece →
      Follows down ticks r key (onFragment t key packet).2) :
    Follows down ticks r key (dispatch onFragment key s packet) := by
  have hannounced := h.announce packet
  have hhandled := hannounced.handlePacket harrives (hfragment hannounced harrives)
  unfold Relay.dispatch
  split
  · rename_i t ht
    rw [ht] at hhandled
    exact hhandled
  · rename_i e t ht
    rw [ht] at hhandled
    exact hhandled.log _ _

/-- The packets of a buffer are handled in order, and moves lead to each of them. -/
theorem foldl_dispatch {bytes : Bytes} (h : Follows down ticks r key s)
    (harrives : ∀ {t packet}, Upcoming onFragment key s bytes t packet →
      Handles onFragment t key packet)
    (hfragment : ∀ {t packet header piece}, Follows down ticks r key t →
      Handles onFragment t key packet → packet.body = .fragment header piece →
      Follows down ticks r key (onFragment t key packet).2)
    {before after : List Packet} (hsplit : (Datagram.read bytes).packets = before ++ after) :
    Follows down ticks r key (before.foldl (Relay.dispatch onFragment key) s) := by
  induction before using List.reverseRecOn generalizing after with
  | nil => exact h
  | append_singleton before packet ih =>
    rw [List.append_assoc, List.singleton_append] at hsplit
    rw [List.foldl_append]
    exact (ih hsplit).dispatch (harrives ⟨before, after, hsplit, rfl⟩) hfragment

theorem handleBuffer {bytes : Bytes} (h : Follows down ticks r key s)
    (harrives : ∀ {t packet}, Upcoming onFragment key s bytes t packet →
      Handles onFragment t key packet)
    (hfragment : ∀ {t packet header piece}, Follows down ticks r key t →
      Handles onFragment t key packet → packet.body = .fragment header piece →
      Follows down ticks r key (onFragment t key packet).2) :
    Follows down ticks r key (s.handleBuffer onFragment key bytes).2 := by
  have hhandled := h.foldl_dispatch harrives hfragment (List.append_nil _).symm
  unfold Relay.handleBuffer
  dsimp only
  split
  · exact hhandled.logAll _
  · exact hhandled

theorem dropFragment (h : Follows down ticks r key s) (packet : Packet) :
    Follows down ticks r key (Relay.dropFragment s key packet).2 := h.log _ _

theorem collect (h : Follows down ticks r key s) (packet : Packet) :
    Follows down ticks r key (s.collect key packet).2 := by
  unfold Relay.collect
  split
  · exact h
  · rename_i face hface
    exact (h.step (.fragment hface packet) (contains_modifyFace _ h.knows.face)).logAll _

theorem takeFragment {header : FragmentHeader} {piece : Span} (h : Follows down ticks r key s)
    (harrives : Handles Relay.takeFragment s key packet)
    (hbody : packet.body = .fragment header piece) :
    Follows down ticks r key (Relay.takeFragment s key packet).2 := by
  have hcollected := h.collect packet
  unfold Relay.takeFragment
  split
  · rename_i hs
    rw [hs] at hcollected
    exact hcollected
  · rename_i hs
    rw [hs] at hcollected
    exact hcollected
  · rename_i hs
    rw [hs] at hcollected
    exact hcollected.handleBuffer (fun hup => .reassembled harrives hbody hs hup)
      fun ht _ _ => ht.dropFragment _

end Follows

/-! ## Faces -/

section

variable {down ticks : Prop}

theorem works_addFace (r : Relay) (index : Nat) (address : FaceAddress) (flags : FaceFlags) :
    Works down ticks r (r.addFace index address flags).2 := by
  unfold addFace
  split
  · exact .refl
  · rename_i interface hindex
    split
    · rename_i key hfound
      exact .single (.flagFace hfound flags)
    · rename_i hnew
      exact .head (.log r _) (.single (.newFace flags hindex hnew))

theorem works_faceFor (r : Relay) (index : Nat) (address : FaceAddress) :
    Works down ticks r (r.faceFor index address).2 := by
  unfold faceFor
  split
  · exact .refl
  · exact works_addFace r index address {}

theorem works_sender (r : Relay) (index : Nat) (source : FaceAddress) :
    Works down ticks r (r.sender index source).2 := by
  have hface : Works down ticks r _ := works_faceFor r index source
  unfold sender
  split
  · rename_i hs
    exact works_of_eq hface hs
  · rename_i key s hs
    exact (works_of_eq hface hs).tail (.hear s key)

theorem works_applicationFace (r : Relay) : Works down ticks r r.applicationFace.2 := by
  unfold applicationFace
  split
  · exact .refl
  · rename_i hnone
    exact .single (.newApplicationFace hnone)

/-- The face that stands for the application is a face. -/
theorem knows_applicationFace {r : Relay} (h : r.Consistent) :
    r.applicationFace.2.Knows r.applicationFace.1 := by
  refine ⟨h.moves (works_applicationFace r), ?_⟩
  unfold applicationFace
  split
  · rename_i key hlocal
    exact (Option.filter_eq_some_iff.1 hlocal).2
  · exact Slots.contains_iff.2 ⟨_, Slots.get?_insert_self h.faces _⟩

/-- A face that was asked for by its address is a face. -/
theorem knows_addFace {r s : Relay} {index : Nat} {address : FaceAddress} {flags : FaceFlags}
    {key : FaceKey} (h : r.Consistent) (hadd : r.addFace index address flags = (.ok key, s)) :
    s.Knows key := by
  refine ⟨h.moves (works_of_eq (works_addFace r index address flags) hadd), ?_⟩
  unfold addFace at hadd
  split at hadd
  · cases hadd
  · split at hadd
    · rename_i found hfound
      cases hadd
      obtain ⟨f, hf, -⟩ := Slots.get?_of_find? hfound
      exact contains_modifyFace _ (Slots.contains_iff.2 ⟨f, hf⟩)
    · cases hadd
      exact Slots.contains_iff.2 ⟨_, Slots.get?_insert_self h.faces _⟩

theorem knows_faceFor {r s : Relay} {index : Nat} {address : FaceAddress} {key : FaceKey}
    (h : r.Consistent) (hface : r.faceFor index address = (.ok key, s)) : s.Knows key := by
  unfold faceFor at hface
  split at hface
  · rename_i found hfound
    cases hface
    obtain ⟨f, hf, -⟩ := Slots.get?_of_find? hfound
    exact ⟨h, Slots.contains_iff.2 ⟨f, hf⟩⟩
  · exact knows_addFace h hface

theorem knows_sender {r s : Relay} {index : Nat} {source : FaceAddress} {key : FaceKey}
    (h : r.Consistent) (hsender : r.sender index source = (.ok key, s)) : s.Knows key := by
  unfold sender at hsender
  split at hsender
  · cases hsender
  · rename_i found t hfound
    cases hsender
    have ht := knows_faceFor h hfound
    exact ⟨ht.consistent.modifyFace _ _, contains_modifyFace _ ht.face⟩

/-! ## Calls -/

theorem works_receive {r : Relay} (h : r.Consistent) (hr : Reachable r) (index : Nat)
    (bytes : Bytes) (source : FaceAddress) : Works down ticks r (r.receive index bytes source).2 := by
  have hsender : Works down ticks r _ := works_sender r index source
  unfold receive
  split
  · rename_i hs
    exact works_of_eq hsender hs
  · rename_i key s hs
    have hknown : Follows down ticks r key s := ⟨works_of_eq hsender hs, knows_sender h hs⟩
    exact (hknown.handleBuffer (fun hup => .received hr hs hup) Follows.takeFragment).moves

theorem works_request {r : Relay} (h : r.Consistent) (hr : Reachable r) (name : Name)
    (chunk : Option UInt32) : Works down ticks r (r.request name chunk).2 := by
  unfold request
  split
  · exact .refl
  · rename_i wanted hname
    dsimp only
    split
    · exact .single (.nextNonce r)
    · rename_i interest hread
      have hasked :
          Asked r.nextNonce.2.applicationFace.2 r.nextNonce.2.applicationFace.1 interest := by
        cases hwire : name.suite.encodeInterest wanted { nonce := some r.nextNonce.1 } with
        | error e =>
          rw [hwire] at hread
          cases hread
        | ok wire =>
          rw [hwire] at hread
          exact .requested hr hname hwire hread rfl
      have hknown := knows_applicationFace (h.move (.nextNonce r))
      exact .head (.nextNonce r) ((works_applicationFace _).tail (.interest hasked hknown.face))

theorem works_publishPackets {r : Relay} {packets : List Packet}
    (h : ∀ packet ∈ packets, Published packet) : Works down ticks r (r.publishPackets packets).2 := by
  induction packets generalizing r with
  | nil => exact .refl
  | cons packet packets ih =>
    have hfirst := h packet List.mem_cons_self
    unfold publishPackets
    split
    · rename_i hs
      exact .single (.refuse hfirst hs)
    · rename_i hs
      exact .head (.publish hfirst hs) (ih fun p hp => h p (List.mem_cons_of_mem packet hp))

theorem works_addContent (r : Relay) (p : Publication) : Works down ticks r (r.addContent p).2 := by
  unfold addContent
  split
  · exact .refl
  · rename_i packets hpackets
    have hpublished : Works down ticks r (r.publishPackets packets).2 :=
      works_publishPackets fun packet hmem => ⟨p, packets, hpackets, hmem⟩
    split
    · rename_i hs
      exact works_of_eq hpublished hs
    · rename_i s hs
      exact (works_of_eq hpublished hs).tail (.log s _)

theorem works_addInterface (r : Relay) (address : FaceAddress) (mtu : Nat) (flags : FaceFlags) :
    Works down ticks r (r.addInterface address mtu flags).2 := by
  unfold addInterface
  dsimp only
  split
  · exact .refl
  · rename_i hroom
    let logged :=
      r.log .info ("Interface " ++ toString r.interfaces.length ++ " on " ++ address.text)
    have hfits : logged.interfaces.length < maxInterfaces := Nat.lt_of_not_le hroom
    exact .head (.log r _) (.single (.newInterface hfits address mtu flags))

theorem works_setPacing (r : Relay) (index : Nat) (pacing : Option Nat) :
    Works down ticks r (r.setPacing index pacing).2 := by
  unfold setPacing
  split
  · exact .single (.pace r index pacing)
  · exact .refl

theorem works_addRoute (r : Relay) (name : Name) (suite : Suite) (destination : Destination) :
    Works down ticks r (r.addRoute name suite destination).2 := by
  unfold addRoute
  split
  · exact .refl
  · dsimp only
    split
    · rename_i key
      split
      · rename_i hkey
        refine .head (.log r _) (.single (.newRoute name fun k hk => ?_))
        cases hk
        exact hkey
      · exact .refl
    · exact .head (.log r _) (.single (.newRoute name fun _ hk => by cases hk))

theorem works_removeRoute (r : Relay) (name : Name) (suite : Suite) :
    Works down ticks r (r.removeRoute name suite).2 := by
  unfold removeRoute
  split
  · exact .single (.removeRoute r name)
  · exact .refl

theorem works_start (r : Relay) : Works down ticks r r.start.2 := by
  obtain ⟨s, harmed, hs⟩ := start_cases r
  have hworks : Works down ticks r s := by
    rcases harmed with rfl | rfl
    · exact .refl
    · exact .single (.armAgeing r)
  rcases hs with hs | ⟨text, hs⟩ <;> rw [hs]
  · exact hworks
  · exact hworks.tail (.log s _)

theorem works_ageFaces (r : Relay) : Works True ticks r r.ageFaces := by
  exact List.foldlRecOn (motive := Works True ticks r) _ _ .refl fun s hs key _ =>
    hs.tail (.removeFace trivial s key)

theorem works_age (r : Relay) : Works True ticks r (r.onTimer .ageing) := by
  have hswept : Works True ticks r ({ r with ageingTimer := none } : Relay).age :=
    .head (.disarm r) (.head (.ageContents _) (.head (.ageInterests _) (works_ageFaces _)))
  have harmed := hswept.tail (.armAgeing _)
  rcases onTimer_ageing_cases r rfl with hs | ⟨text, hs⟩ <;> rw [hs]
  · exact harmed
  · exact harmed.tail (.log _ _)

end

/-- Every call is done in pieces of work. It tears faces down and sets the clock only if it may. -/
theorem works_perform {r : Relay} (h : r.Consistent) (hr : Reachable r) (c : Call) :
    Works c.TearsDown c.TellsTime r (r.perform c) := by
  cases c with
  | addInterface address mtu flags => exact works_addInterface r address mtu flags
  | setPacing index pacing => exact works_setPacing r index pacing
  | addFace index address flags => exact works_addFace r index address flags
  | faceFor index address => exact works_faceFor r index address
  | applicationFace => exact works_applicationFace r
  | removeFace key => exact .single (.removeFace trivial r key)
  | addRoute name suite destination => exact works_addRoute r name suite destination
  | removeRoute name suite => exact works_removeRoute r name suite
  | addContent p => exact works_addContent r p
  | removeContent name => exact .single (.removeContent r name)
  | setCacheLimit limit => exact .single (.setCacheLimit r limit)
  | request name chunk => exact works_request h hr name chunk
  | receive index bytes source => exact works_receive h hr index bytes source
  | start => exact works_start r
  | stop => exact .single (.stop r)
  | onTimer event =>
    cases event with
    | clearToSend index => exact .single (.clearToSend r index)
    | ageing => exact works_age r
  | clock now => exact .single (.clock trivial r now)
  | expire event =>
    simp only [perform]
    split
    · rename_i handle host hexpire
      exact .single (.expire hexpire)
    · exact .refl

/-- Every call is a sequence of moves. -/
theorem moves_perform {r : Relay} (h : r.Consistent) (hr : Reachable r) (c : Call) :
    Moves r (r.perform c) := (works_perform h hr c).moves

/-! ## Configurations -/

theorem works_configured {down ticks : Prop} (host : Host) (c : Config) :
    Works down ticks (withLimits host c) (configured host c).2 :=
  configured_related (fun _ => .refl) .trans works_addInterface works_setPacing works_addFace
    works_addRoute host c

/-! ## Runs -/

/-- A run leads through this state, during a call or after one. -/
def Visited (r : Relay) : Prop :=
  ∃ now digest grants c, Moves (withLimits (Host.fresh now digest grants) c) r

namespace Visited

variable {r s : Relay}

theorem moves (h : Visited r) (hm : Moves r s) : Visited s := by
  obtain ⟨now, digest, grants, c, hstart⟩ := h
  exact ⟨now, digest, grants, c, hstart.trans hm⟩

theorem consistent (h : Visited r) : r.Consistent := by
  obtain ⟨now, digest, grants, c, hstart⟩ := h
  exact (consistent_withLimits _ c).moves hstart

/-- What holds of a new relay and is kept by every move holds throughout every run. -/
theorem keeps {P : Relay → Prop}
    (hstart : ∀ now digest grants c, P (withLimits (Host.fresh now digest grants) c))
    (hmove : ∀ {r s}, r.Consistent → P r → Move r s → P s) (h : Visited r) : P r := by
  obtain ⟨now, digest, grants, c, hmoves⟩ := h
  induction hmoves with
  | refl => exact hstart now digest grants c
  | tail hmoves hm ih => exact hmove ((consistent_withLimits _ c).moves hmoves) ih hm

end Visited

/-- Moves lead to a state from a relay that has the limits of its configuration. -/
theorem ReachableUnder.moves {c : Config} {r : Relay} (h : ReachableUnder c r) :
    ∃ now digest grants, Moves (withLimits (Host.fresh now digest grants) c) r := by
  induction h with
  | fresh now digest grants => exact ⟨now, digest, grants, .refl⟩
  | configured now digest grants hr =>
    exact ⟨now, digest, grants, works_of_eq (works_configured _ _) hr⟩
  | perform hr call ih =>
    obtain ⟨now, digest, grants, hmoves⟩ := ih
    exact ⟨now, digest, grants, hmoves.trans (moves_perform
      ((consistent_withLimits _ _).moves hmoves) hr.reachable call)⟩

theorem Reachable.visited {r : Relay} (h : Reachable r) : Visited r := by
  obtain ⟨c, hr⟩ := reachable_iff.1 h
  obtain ⟨now, digest, grants, hmoves⟩ := hr.moves
  exact ⟨now, digest, grants, c, hmoves⟩

/-- Every reachable state is consistent. -/
theorem Reachable.consistent {r : Relay} (h : Reachable r) : r.Consistent := h.visited.consistent

theorem Upcoming.follows {onFragment : FragmentHandler} {key : FaceKey} {r s : Relay}
    {bytes : Bytes} {packet : Packet} (h : Upcoming onFragment key r bytes s packet)
    (hr : r.Knows key)
    (harrives : ∀ {t packet}, Upcoming onFragment key r bytes t packet →
      Handles onFragment t key packet)
    (hfragment : ∀ {t packet header piece}, Follows True True r key t →
      Handles onFragment t key packet → packet.body = .fragment header piece →
      Follows True True r key (onFragment t key packet).2) :
    Follows True True r key s := by
  have hstart : Follows True True r key r := ⟨.refl, hr⟩
  obtain ⟨before, after, hsplit, rfl⟩ := h
  exact (hstart.foldl_dispatch harrives hfragment hsplit).announce packet

/-- A run leads to every state in which a packet comes up, and the packet came from a face. -/
theorem Handles.visited {onFragment : FragmentHandler} {r : Relay} {key : FaceKey}
    {packet : Packet} (h : Handles onFragment r key packet) :
    Visited r ∧ r.faces.contains key = true := by
  induction h with
  | received hr hsender hup =>
    have hfollows := hup.follows (knows_sender hr.consistent hsender)
      (fun hup => .received hr hsender hup) Follows.takeFragment
    have hsent := hr.visited.moves (works_of_eq (works_sender _ _ _) hsender)
    exact ⟨hsent.moves hfollows.moves, hfollows.knows.face⟩
  | @reassembled r _ _ key fragment _ _ _ _ hr hbody hwhole hup ih =>
    have hhere : Follows True True r key r := ⟨.refl, ih.1.consistent, ih.2⟩
    have hcollected := hhere.collect fragment
    rw [hwhole] at hcollected
    have hfollows := hup.follows hcollected.knows
      (fun hup => .reassembled hr hbody hwhole hup) fun ht _ _ => ht.dropFragment _
    exact ⟨(ih.1.moves hcollected.moves).moves hfollows.moves, hfollows.knows.face⟩

/-- A packet comes up in a consistent state, from one of its faces. -/
theorem Handles.knows {onFragment : FragmentHandler} {r : Relay} {key : FaceKey} {packet : Packet}
    (h : Handles onFragment r key packet) : r.Knows key :=
  ⟨h.visited.1.consistent, h.visited.2⟩

/-- An interest is taken in by a consistent relay, for one of its faces. -/
theorem Asked.knows {r : Relay} {key : FaceKey} {interest : Packet} (h : Asked r key interest) :
    r.Knows key := by
  cases h with
  | received h _ _ => exact h.knows
  | @requested r₀ _ _ _ _ _ _ _ hr _ _ _ hface =>
    have hknows := knows_applicationFace (hr.consistent.move (.nextNonce r₀))
    rw [hface] at hknows
    exact hknows

end Relay

end NameRelay
