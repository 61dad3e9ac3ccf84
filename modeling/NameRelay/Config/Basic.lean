-- SUMMARY: The settings of a relay: limits, timeouts, interfaces and routes.

/-!
# Configurations

A configuration has limits and timeouts, the interfaces of a relay and its first routes. Whatever is
not said has the value given here, but a route has to say everything.
-/

namespace NameRelay

/-- A transport endpoint that is to be opened. -/
structure InterfaceConfig where
  address : String := ""
  /-- Zero sends every packet whole. -/
  mtu : Nat := 0
  reflect : Bool := false
  forwardAllInterests : Bool := false
  /-- The time between two transmissions in microseconds. -/
  pacing : Option Nat := none
  deriving DecidableEq, Repr, Inhabited

/-- A route that is to be set. -/
structure RouteConfig where
  name : String
  suite : String
  /-- The number of the interface that the next hop is reached through. -/
  interface : Nat
  nextHop : String
  deriving DecidableEq, Repr, Inhabited

/-- The settings of a relay. -/
structure Config where
  /-- The limit of the content store: zero disables it, and below zero there is none. -/
  maxCacheEntries : Int := 0
  maxNonces : Nat := 256
  ageingIntervalMillis : Nat := 1000
  contentTimeoutSecs : Nat := 300
  interestTimeoutSecs : Nat := 40
  faceTimeoutSecs : Nat := 150
  maxRetransmissions : Nat := 20
  interfaces : List InterfaceConfig := []
  routes : List RouteConfig := []
  deriving DecidableEq, Repr, Inhabited

end NameRelay
