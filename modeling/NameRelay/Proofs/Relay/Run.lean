-- SUMMARY: Runs of a relay: the calls it gets, the states it reaches, the packets it meets.
import NameRelay.Relay.Configured
import NameRelay.Relay.Lifecycle
import NameRelay.Relay.Publish
import NameRelay.Relay.Receive

/-!
# Runs

Whoever drives a relay makes calls, in any order and with any arguments, and meanwhile the clock
moves and timers go off. A state is reachable if some sequence of calls leads to it. While a relay
takes in bytes it handles packets one after the other, so packets also come up in states between
two calls; `Handles` and `Asked` say in which.
-/

namespace NameRelay

/-- Something that happens to a relay. -/
inductive Call where
  | addInterface (address : FaceAddress) (mtu : Nat) (flags : FaceFlags)
  | setPacing (index : Nat) (pacing : Option Nat)
  | addFace (index : Nat) (address : FaceAddress) (flags : FaceFlags)
  | faceFor (index : Nat) (address : FaceAddress)
  | applicationFace
  | removeFace (key : FaceKey)
  | addRoute (name : Name) (suite : Suite) (destination : Destination)
  | removeRoute (name : Name) (suite : Suite)
  | addContent (p : Publication)
  | removeContent (name : Name)
  | setCacheLimit (limit : Int)
  | request (name : Name) (chunk : Option UInt32)
  | receive (index : Nat) (bytes : Bytes) (source : FaceAddress)
  | start
  | stop
  | onTimer (event : TimerEvent)
  /-- The host's clock shows another time, later or earlier. -/
  | clock (now : Instant)
  /-- The host takes the oldest timer for an event off its list. -/
  | expire (event : TimerEvent)

namespace Relay

/-- The relay after a call, whatever the call answers. -/
def perform (r : Relay) : Call → Relay
  | .addInterface address mtu flags => (r.addInterface address mtu flags).2
  | .setPacing index pacing => (r.setPacing index pacing).2
  | .addFace index address flags => (r.addFace index address flags).2
  | .faceFor index address => (r.faceFor index address).2
  | .applicationFace => r.applicationFace.2
  | .removeFace key => (r.removeFace key).2
  | .addRoute name suite destination => (r.addRoute name suite destination).2
  | .removeRoute name suite => (r.removeRoute name suite).2
  | .addContent p => (r.addContent p).2
  | .removeContent name => (r.removeContent name).2
  | .setCacheLimit limit => r.setCacheLimit limit
  | .request name chunk => (r.request name chunk).2
  | .receive index bytes source => (r.receive index bytes source).2
  | .start => r.start.2
  | .stop => r.stop
  | .onTimer event => r.onTimer event
  | .clock now => { r with host := { r.host with now } }
  | .expire event =>
    match r.host.expire? event with
    | some (_, host) => { r with host }
    | none => r

/-- A state that some run reaches. -/
inductive Reachable : Relay → Prop where
  | fresh (now : Instant) (digest : Bytes → Option Bytes) (grants : Nat → Bool) :
      Reachable (Relay.fresh (Host.fresh now digest grants))
  | configured (now : Instant) (digest : Bytes → Option Bytes) (grants : Nat → Bool) (c : Config)
      {r : Relay} (h : Relay.configured (Host.fresh now digest grants) c = (.ok (), r)) :
      Reachable r
  | perform {r : Relay} (h : Reachable r) (c : Call) : Reachable (r.perform c)

/-- A state that some run under a configuration reaches. A new relay has the one that says nothing. -/
inductive ReachableUnder : Config → Relay → Prop where
  | fresh (now : Instant) (digest : Bytes → Option Bytes) (grants : Nat → Bool) :
      ReachableUnder {} (Relay.fresh (Host.fresh now digest grants))
  | configured (now : Instant) (digest : Bytes → Option Bytes) (grants : Nat → Bool) {c : Config}
      {r : Relay} (h : Relay.configured (Host.fresh now digest grants) c = (.ok (), r)) :
      ReachableUnder c r
  | perform {c : Config} {r : Relay} (h : ReachableUnder c r) (call : Call) :
      ReachableUnder c (r.perform call)

/-- Every reachable state is reached under one configuration or another. -/
theorem reachable_iff {r : Relay} : Reachable r ↔ ∃ c, ReachableUnder c r := by
  constructor
  · intro h
    induction h with
    | fresh now digest grants => exact ⟨{}, .fresh now digest grants⟩
    | configured now digest grants c hr => exact ⟨c, .configured now digest grants hr⟩
    | perform _ call ih =>
      obtain ⟨c, hr⟩ := ih
      exact ⟨c, hr.perform call⟩
  · rintro ⟨c, h⟩
    induction h with
    | fresh now digest grants => exact .fresh now digest grants
    | configured now digest grants hr => exact .configured now digest grants _ hr
    | perform _ call ih => exact ih.perform call

theorem ReachableUnder.reachable {c : Config} {r : Relay} (h : ReachableUnder c r) : Reachable r :=
  reachable_iff.2 ⟨c, h⟩

/-- The relay after some calls. -/
def performAll (r : Relay) (calls : List Call) : Relay := calls.foldl perform r

theorem ReachableUnder.performAll {c : Config} {r : Relay} (h : ReachableUnder c r)
    (calls : List Call) : ReachableUnder c (r.performAll calls) := by
  induction calls generalizing r with
  | nil => exact h
  | cons call calls ih => exact ih (h.perform call)

theorem Reachable.performAll {r : Relay} (h : Reachable r) (calls : List Call) :
    Reachable (r.performAll calls) := by
  induction calls generalizing r with
  | nil => exact h
  | cons c calls ih => exact ih (h.perform c)

/-! ## Configurations

A configuration is done by adding interfaces, pacing them, and adding faces and routes. A relation
between states that each of these keeps to holds between the start and the configured relay,
whether or not the configuration could be done. -/

section

variable {R : Relay → Relay → Prop} (hrefl : ∀ r, R r r)
  (htrans : ∀ {r s t}, R r s → R s t → R r t)

include hrefl htrans

theorem forEach_related {α : Type} {f : Relay → α → Except RelayError Unit × Relay}
    (hf : ∀ r a, R r (f r a).2) (r : Relay) (items : List α) : R r (forEach f r items).2 := by
  induction items generalizing r with
  | nil => exact hrefl r
  | cons a items ih =>
    have hfirst := hf r a
    unfold forEach
    split
    · rename_i s hs
      rw [hs] at hfirst
      exact htrans hfirst (ih s)
    · rename_i hs
      rwa [hs] at hfirst

theorem configureInterface_related
    (hadd : ∀ r address mtu flags, R r (addInterface r address mtu flags).2)
    (hpace : ∀ r index pacing, R r (setPacing r index pacing).2) (r : Relay) (c : InterfaceConfig) :
    R r (r.configureInterface c).2 := by
  unfold configureInterface
  split
  · exact hrefl r
  · rename_i address _
    have hadded := hadd r address c.mtu
      { reflects := c.reflect, forwardsAll := c.forwardAllInterests }
    split
    · rename_i hs
      rwa [hs] at hadded
    · rename_i index s hs
      rw [hs] at hadded
      exact htrans hadded (hpace s index c.pacing)

theorem configureRoute_related
    (hface : ∀ r index address flags, R r (addFace r index address flags).2)
    (hroute : ∀ r name suite destination, R r (addRoute r name suite destination).2)
    (r : Relay) (c : RouteConfig) : R r (r.configureRoute c).2 := by
  unfold configureRoute
  split
  · exact hrefl r
  · split
    · exact hrefl r
    · split
      · exact hrefl r
      · rename_i suite _ _ name _ _ nextHop _
        have hadded := hface r c.interface nextHop { pinned := true }
        split
        · rename_i hs
          rwa [hs] at hadded
        · rename_i key s hs
          rw [hs] at hadded
          exact htrans hadded (hroute s name suite (.face key))

theorem configured_related
    (hadd : ∀ r address mtu flags, R r (addInterface r address mtu flags).2)
    (hpace : ∀ r index pacing, R r (setPacing r index pacing).2)
    (hface : ∀ r index address flags, R r (addFace r index address flags).2)
    (hroute : ∀ r name suite destination, R r (addRoute r name suite destination).2)
    (host : Host) (c : Config) : R (withLimits host c) (configured host c).2 := by
  have hinterfaces := forEach_related hrefl htrans
    (configureInterface_related hrefl htrans hadd hpace) (withLimits host c) c.interfaces
  unfold configured
  split
  · rename_i hs
    rwa [hs] at hinterfaces
  · rename_i s hs
    rw [hs] at hinterfaces
    exact htrans hinterfaces (forEach_related hrefl htrans
      (configureRoute_related hrefl htrans hface hroute) s c.routes)

end

/-! ## Buffers

To handle a buffer is to leave records, to take in interests and contents, and to give fragments to
reassemblers. A relation that holds across each of these holds across the buffer. -/

/-- The relation holds across each piece of work that the handling of packets is made of. -/
structure AcrossPackets (R : Relay → Relay → Prop) : Prop where
  refl : ∀ r, R r r
  trans : ∀ {r s t}, R r s → R s t → R r t
  record : ∀ r record, R r (r.emit (.log record))
  interest : ∀ r key interest, R r (handleInterest r key interest).2
  content : ∀ r key content, R r (handleContent r key content).2
  collect : ∀ r key packet, R r (collect r key packet).2

namespace AcrossPackets

variable {R : Relay → Relay → Prop} (h : AcrossPackets R)

include h

theorem logAll (r : Relay) (records : List LogRecord) : R r (r.logAll records) := by
  induction records generalizing r with
  | nil => exact h.refl r
  | cons record records ih => exact h.trans (h.record r record) (ih _)

section

variable {onFragment : FragmentHandler} {key : FaceKey}
  (hfragment : ∀ r packet, R r (onFragment r key packet).2)

include hfragment

theorem handlePacket (r : Relay) (packet : Packet) : R r (handlePacket onFragment key r packet).2 := by
  unfold Relay.handlePacket
  split
  · unfold handleHop
    split
    · exact h.interest r key _
    · exact h.record r _
  · exact h.content r key packet
  · exact h.record r _
  · exact hfragment r packet

theorem dispatch (r : Relay) (packet : Packet) : R r (dispatch onFragment key r packet) := by
  have hannounced : R r (r.announce key packet) := h.trans (h.logAll r _) (h.record _ _)
  have hhandled := h.trans hannounced (h.handlePacket hfragment _ packet)
  unfold Relay.dispatch
  split
  · rename_i hs
    rwa [hs] at hhandled
  · rename_i hs
    rw [hs] at hhandled
    exact h.trans hhandled (h.record _ _)

theorem foldl_dispatch (r : Relay) (packets : List Packet) :
    R r (packets.foldl (Relay.dispatch onFragment key) r) :=
  List.foldlRecOn (motive := R r) packets _ (h.refl r) fun s hs packet _ =>
    h.trans hs (h.dispatch hfragment s packet)

theorem handleBuffer (r : Relay) (bytes : Bytes) : R r (r.handleBuffer onFragment key bytes).2 := by
  have hhandled := h.foldl_dispatch hfragment r (Datagram.read bytes).packets
  unfold Relay.handleBuffer
  dsimp only
  split
  · exact h.trans hhandled (h.logAll _ _)
  · exact hhandled

end

theorem takeFragment (r : Relay) (key : FaceKey) (packet : Packet) :
    R r (takeFragment r key packet).2 := by
  have hcollected := h.collect r key packet
  unfold Relay.takeFragment
  split
  · rename_i hs
    rwa [hs] at hcollected
  · rename_i hs
    rwa [hs] at hcollected
  · rename_i hs
    rw [hs] at hcollected
    exact h.trans hcollected (h.handleBuffer (fun s _ => h.record s _) _ _)

theorem receive (hsender : ∀ r index source, R r (sender r index source).2) (r : Relay) (index : Nat)
    (bytes : Bytes) (source : FaceAddress) : R r (r.receive index bytes source).2 := by
  have hheard := hsender r index source
  unfold Relay.receive
  split
  · rename_i hs
    rwa [hs] at hheard
  · rename_i key _ hs
    rw [hs] at hheard
    exact h.trans hheard (h.handleBuffer (fun s packet => h.takeFragment s key packet) _ bytes)

end AcrossPackets

/-! ## What has been done since -/

/-- The deeds of `s` that follow those of `r`. -/
def since (r s : Relay) : List Deed := s.history.drop r.history.length

theorem since_of_append {r s : Relay} {new : List Deed} (h : s.history = r.history ++ new) :
    r.since s = new := by
  rw [since, h, List.drop_left]

theorem since_of_eq {r s : Relay} (h : s.history = r.history) : r.since s = [] :=
  since_of_append (by rw [h, List.append_nil])

/-! ## Packets within a call -/

/-- While `r` handles a buffer that came from `key`, `packet` comes up in the state `s`. -/
def Upcoming (onFragment : FragmentHandler) (key : FaceKey) (r : Relay) (bytes : Bytes)
    (s : Relay) (packet : Packet) : Prop :=
  ∃ before after, (Datagram.read bytes).packets = before ++ packet :: after ∧
    s = (before.foldl (dispatch onFragment key) r).announce key packet

/-- In some run the packet is about to be handled in this state, having come from the face: as
    part of received bytes, or of a packet put together from fragments. -/
inductive Handles : FragmentHandler → Relay → FaceKey → Packet → Prop where
  | received {r s t : Relay} {index : Nat} {bytes : Bytes} {source : FaceAddress} {key : FaceKey}
      {packet : Packet} (hr : Reachable r) (hsender : r.sender index source = (.ok key, s))
      (h : Upcoming takeFragment key s bytes t packet) : Handles takeFragment t key packet
  | reassembled {r s t : Relay} {key : FaceKey} {fragment packet : Packet}
      {header : FragmentHeader} {piece : Span} {whole : Bytes}
      (hr : Handles takeFragment r key fragment) (hbody : fragment.body = .fragment header piece)
      (hwhole : r.collect key fragment = (.ok (some whole), s))
      (h : Upcoming dropFragment key s whole t packet) : Handles dropFragment t key packet

/-- In some run the relay is about to take in the interest in this state: it came from a face, or
    the local application asks for it. -/
inductive Asked : Relay → FaceKey → Packet → Prop where
  | received {onFragment : FragmentHandler} {r : Relay} {key : FaceKey} {packet interest : Packet}
      {name : Name} {content : Option Span} (h : Handles onFragment r key packet)
      (hbody : packet.body = .message .interest name content)
      (hhop : packet.withLoweredHopLimit = some interest) : Asked r key interest
  | requested {r s : Relay} {name wanted : Name} {chunk : Option UInt32} {wire : Bytes}
      {interest : Packet} {key : FaceKey} (hr : Reachable r)
      (hname : chunk.elim (.ok name) name.withChunk = .ok wanted)
      (hwire : name.suite.encodeInterest wanted { nonce := some r.nextNonce.1 } = .ok wire)
      (hback : name.suite.readBack wire = .ok interest)
      (hface : r.nextNonce.2.applicationFace = (key, s)) : Asked s key interest

end Relay

end NameRelay
