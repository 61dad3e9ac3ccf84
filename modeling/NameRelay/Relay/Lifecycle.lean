-- SUMMARY: Starting and stopping a relay, and its timers.
import NameRelay.Relay.Ageing
import NameRelay.Relay.Transmit

/-!
# Timers

A running relay has one timer for the regular sweep, which is set again after each sweep, and one
for every paced interface that has something to send.
-/

namespace NameRelay

namespace Relay

/-- Sets the timer for the next sweep. -/
def armAgeing (r : Relay) : Except RelayError Unit × Relay :=
  match r.setTimer r.timeouts.ageingInterval .ageing with
  | (some handle, r) => (.ok (), { r with ageingTimer := some handle })
  | (none, r) => (.error .timerUnavailable, r)

/-- Starts the regular sweep, unless it is running. -/
def start (r : Relay) : Except RelayError Unit × Relay :=
  let (outcome, r) := if r.ageingTimer.isSome then (.ok (), r) else r.armAgeing
  match outcome with
  | .error e => (.error e, r)
  | .ok _ =>
    (.ok (), r.log .info ("Relay started with " ++ toString r.interfaces.length ++ " interfaces"))

/-- Cancels the timers that there are. -/
def cancelAll (r : Relay) (timers : List (Option Nat)) : Relay :=
  (timers.filterMap id).foldl cancelTimer r

/-- Cancels every timer of the relay. -/
def stop (r : Relay) : Relay :=
  let r := r.cancelAll (r.ageingTimer :: r.interfaces.map (·.timer))
  { r with
    ageingTimer := none
    interfaces := r.interfaces.map fun i => { i with timer := none } }

/-- A timer went off. -/
def onTimer (r : Relay) : TimerEvent → Relay
  | .clearToSend index => r.clearToSend index
  | .ageing =>
    match { r with ageingTimer := none }.age.armAgeing with
    | (.ok _, r) => r
    | (.error e, r) => r.log .warn ("Ageing stopped: " ++ e.message)

end Relay

end NameRelay
