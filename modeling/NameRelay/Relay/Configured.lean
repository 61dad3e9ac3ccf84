-- SUMMARY: A relay with the interfaces and routes of a configuration.
import NameRelay.Relay.Faces
import NameRelay.Relay.Routing

/-!
# Configured relays

The interfaces of a configuration are added first and then its routes, each in order. The next hop
of a route becomes a pinned face. The first thing that cannot be done ends it.
-/

namespace NameRelay

namespace Relay

/-- Does something for one item after the other, up to the first that fails. -/
def forEach {α : Type} (f : Relay → α → Except RelayError Unit × Relay) :
    Relay → List α → Except RelayError Unit × Relay
  | r, [] => (.ok (), r)
  | r, a :: rest =>
    match f r a with
    | (.ok _, r) => forEach f r rest
    | (.error e, r) => (.error e, r)

def configureInterface (r : Relay) (c : InterfaceConfig) : Except RelayError Unit × Relay :=
  match FaceAddress.parse? c.address with
  | none => (.error (.config (.interfaceAddress c.address)), r)
  | some address =>
    match r.addInterface address c.mtu
        { reflects := c.reflect, forwardsAll := c.forwardAllInterests } with
    | (.error e, r) => (.error e, r)
    | (.ok index, r) => r.setPacing index c.pacing

def configureRoute (r : Relay) (c : RouteConfig) : Except RelayError Unit × Relay :=
  match Suite.ofName? c.suite with
  | none => (.error (.config (.suite c.suite)), r)
  | some suite =>
    match Name.ofUri suite c.name with
    | .error e => (.error (.name e), r)
    | .ok name =>
      match FaceAddress.parse? c.nextHop with
      | none => (.error (.config (.nextHop c.nextHop)), r)
      | some nextHop =>
        match r.addFace c.interface nextHop { pinned := true } with
        | (.error e, r) => (.error e, r)
        | (.ok key, r) => r.addRoute name suite (.face key)

/-- A relay with the limits, interfaces and routes of a configuration. -/
def configured (host : Host) (c : Config) : Except RelayError Unit × Relay :=
  match forEach configureInterface (withLimits host c) c.interfaces with
  | (.error e, r) => (.error e, r)
  | (.ok _, r) => forEach configureRoute r c.routes

end Relay

end NameRelay
