-- SUMMARY: Routes: which names go to which faces.
import NameRelay.Face.Basic
import NameRelay.Name.Matching

/-!
# Routes

A route sends interests to a face, or shows them to the local application, if its name leads
theirs. Routes stand in the order in which they were first set; setting one again changes only its
destination.
-/

namespace NameRelay

/-- Where a route leads. -/
inductive Destination where
  | face (key : FaceKey)
  /-- Interests are shown to the local application. -/
  | tap
  deriving DecidableEq

/-- How a record of events shows a destination. -/
def Destination.text : Destination → String
  | face key => "Face(" ++ FaceKey.text key ++ ")"
  | tap => "Tap"

structure Route where
  name : Name
  destination : Destination
  deriving DecidableEq

/-- Whether every component of the route's name leads `name`. -/
def Route.covers (r : Route) (name : Name) : Bool :=
  Name.compare .longest name none r.name == some r.name.size

/-- Routes in the order in which they were first set. -/
structure RouteTable where
  routes : List Route
  deriving DecidableEq

namespace RouteTable

def empty : RouteTable := ⟨[]⟩

def size (t : RouteTable) : Nat := t.routes.length

/-- Sets a route. The flag says that there was one with the same name, which keeps its place. -/
def insert (t : RouteTable) (name : Name) (destination : Destination) : Bool × RouteTable :=
  if t.routes.any fun r => r.name.same name then
    (true, ⟨replaceFirst t.routes⟩)
  else
    (false, ⟨t.routes ++ [⟨name, destination⟩]⟩)
where
  /-- Changes the destination of the first route with the name. -/
  replaceFirst : List Route → List Route
    | [] => []
    | r :: rest =>
      if r.name.same name then { r with destination } :: rest else r :: replaceFirst rest

/-- Removes the routes with this name; the flag says that there were any. -/
def remove (t : RouteTable) (name : Name) : Bool × RouteTable :=
  let kept := t.routes.filter fun r => !r.name.same name
  (kept.length != t.routes.length, ⟨kept⟩)

/-- Removes the routes to a face; the number is how many there were. -/
def removeFace (t : RouteTable) (face : FaceKey) : Nat × RouteTable :=
  let kept := t.routes.filter fun r => r.destination != .face face
  (t.routes.length - kept.length, ⟨kept⟩)

/-- The routes that cover a name, in order. -/
def covering (t : RouteTable) (name : Name) : List Route := t.routes.filter (·.covers name)

/-- The covering route with the most components, the oldest of several. -/
def longest? (t : RouteTable) (name : Name) : Option Route :=
  (t.covering name).foldl (fun best r =>
    match best with
    | none => some r
    | some b => if b.name.size < r.name.size then some r else some b) none

end RouteTable

end NameRelay
