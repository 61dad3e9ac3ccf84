-- SUMMARY: Setting and removing the routes of a relay.
import NameRelay.Relay.Basic

/-!
# Routing

A route is for one suite, which has to be its name's, and leads to a face that there is, or to the
local application.
-/

namespace NameRelay

namespace Relay

/-- Sets a route. -/
def addRoute (r : Relay) (name : Name) (suite : Suite) (destination : Destination) :
    Except RelayError Unit × Relay :=
  if name.suite ≠ suite then (.error (.suiteMismatch name.suite suite), r)
  else
    let reachable := match destination with
      | .face key => r.faces.contains key
      | .tap => true
    if reachable then
      let r := r.log .info
        ("Route " ++ name.toUri ++ " (" ++ suite.name ++ ") to " ++ destination.text)
      (.ok (), { r with routes := (r.routes.insert name destination).2 })
    else
      (.error .noSuchFace, r)

/-- Removes a route; the flag says that there was one. -/
def removeRoute (r : Relay) (name : Name) (suite : Suite) : Bool × Relay :=
  if name.suite = suite then
    let (removed, routes) := r.routes.remove name
    (removed, { r with routes })
  else
    (false, r)

end Relay

end NameRelay
