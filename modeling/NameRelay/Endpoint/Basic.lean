-- SUMMARY: A host over datagram sockets: its timers and what the application has not fetched yet.
import NameRelay.Endpoint.TimerQueue
import NameRelay.Log
import NameRelay.Name.Uri

/-!
# Endpoints

An endpoint sends the units of an interface over the interface's socket, and drops them if there is
none. Contents and interests for the local application wait here until the application fetches them.
-/

namespace NameRelay

/-- A content for the local application. -/
structure Delivery where
  name : Name
  chunk : Option UInt32
  payload : Bytes
  deriving DecidableEq, Repr

/-- An interest that was shown to the local application. -/
structure Tapped where
  name : Name
  bytes : Bytes
  deriving DecidableEq, Repr

/-- A host over datagram sockets. -/
structure Endpoint where
  timers : TimerQueue
  /-- The numbers of the interfaces that have a socket. -/
  sockets : List Nat
  deliveries : List Delivery
  tapped : List Tapped
  deriving Repr

namespace Endpoint

/-- An endpoint without sockets. -/
def unbound : Endpoint := ⟨.empty, [], [], []⟩

def hasSocket (e : Endpoint) (index : Nat) : Bool := e.sockets.contains index

def deliver (e : Endpoint) (d : Delivery) : Endpoint :=
  { e with deliveries := e.deliveries ++ [d] }

/-- Fetches the contents that wait. -/
def takeDeliveries (e : Endpoint) : List Delivery × Endpoint :=
  (e.deliveries, { e with deliveries := [] })

def tap (e : Endpoint) (t : Tapped) : Endpoint := { e with tapped := e.tapped ++ [t] }

/-- Fetches the interests that wait. -/
def takeTapped (e : Endpoint) : List Tapped × Endpoint := (e.tapped, { e with tapped := [] })

/-- What is to be said before `bytes` go out over an interface: that they are dropped, if it has no
    socket. -/
def transmitRecords (e : Endpoint) (index : Nat) (bytes : Bytes) : List LogRecord :=
  if e.hasSocket index then []
  else [⟨.warn, s!"Interface {index} has no socket, dropping {bytes.length} bytes"⟩]

end Endpoint

end NameRelay
