-- SUMMARY: Routes lead to faces that there are.
import NameRelay.Proofs.Relay.Arrangement

/-!
# Routes

A route is set to a face that there is, and goes with it. So in every state of a run whatever face a
route leads to can be sent to.
-/

namespace NameRelay

namespace Relay

/-- Whatever face a route leads to, there is. -/
def Routed (r : Relay) : Prop :=
  ∀ route ∈ r.routes.routes, ∀ key, route.destination = .face key → r.faces.contains key = true

namespace Routed

variable {r s : Relay}

/-- Routes may go, and faces may come. -/
theorem mono (h : r.Routed) (hroutes : ∀ route ∈ s.routes.routes, route ∈ r.routes.routes)
    (hfaces : ∀ key, r.faces.contains key = true → s.faces.contains key = true) : s.Routed :=
  fun route hroute key hkey => hfaces key (h route (hroutes route hroute) key hkey)

theorem of_faces (h : r.Routed) (hroutes : s.routes = r.routes)
    (hfaces : ∀ key, r.faces.contains key = true → s.faces.contains key = true) : s.Routed :=
  h.mono (fun route hroute => by rwa [hroutes] at hroute) hfaces

theorem mem_replaceFirst {name : Name} {destination : Destination} {route : Route}
    {routes : List Route} (h : route ∈ RouteTable.insert.replaceFirst name destination routes) :
    route ∈ routes ∨ route.destination = destination := by
  induction routes with
  | nil => cases h
  | cons first rest ih =>
    unfold RouteTable.insert.replaceFirst at h
    split at h
    · rcases List.mem_cons.1 h with rfl | hrest
      · exact .inr rfl
      · exact .inl (List.mem_cons_of_mem first hrest)
    · rcases List.mem_cons.1 h with rfl | hrest
      · exact .inl List.mem_cons_self
      · exact (ih hrest).imp_left (List.mem_cons_of_mem first)

theorem newRoute (h : r.Routed) (name : Name) {destination : Destination}
    (hdestination : ∀ key, destination = .face key → r.faces.contains key = true) :
    ({ r with routes := (r.routes.insert name destination).2 } : Relay).Routed := by
  intro route hroute key hkey
  have hmem : route ∈ r.routes.routes ∨ route.destination = destination := by
    simp only [RouteTable.insert] at hroute
    split at hroute
    · exact mem_replaceFirst hroute
    · rcases List.mem_append.1 hroute with hold | hnew
      · exact .inl hold
      · rw [List.mem_singleton.1 hnew]
        exact .inr rfl
  rcases hmem with hold | hnew
  · exact h route hold key hkey
  · exact hdestination key (hnew.symm.trans hkey)

/-- With a face the routes to it go. -/
theorem removeFace (h : r.Routed) (key : FaceKey) : (r.removeFace key).2.Routed := by
  have hfaces := face?_removeFace r key
  unfold Relay.removeFace at hfaces ⊢
  split at hfaces
  · exact h
  · intro route hroute k hk
    obtain ⟨hold, hother⟩ := List.mem_filter.1 hroute
    have hne : k ≠ key := by
      rintro rfl
      simp [hk] at hother
    obtain ⟨a, ha⟩ := Slots.contains_iff.1 (h route hold k hk)
    exact Slots.contains_iff.2 ⟨a, (hfaces k).trans ((if_neg hne).trans ha)⟩

/-- Every move keeps the routes to faces that there are. -/
theorem move (hc : r.Consistent) (h : r.Routed) (hm : Move r s) : s.Routed := by
  cases hm.arranged with
  | kept hfaces _ hroutes => exact h.of_faces hroutes fun key hkey => (hfaces.contains key).trans hkey
  | newFace | newApplicationFace => exact h.of_faces rfl fun _ => contains_insertFace hc _
  | removeFace => exact h.removeFace _
  | newRoute name hkey => exact h.newRoute name hkey
  | removeRoute => exact h.mono (fun _ hroute => (List.mem_filter.1 hroute).1) fun _ hkey => hkey

end Routed

theorem Visited.routed {r : Relay} (h : Visited r) : r.Routed :=
  h.keeps (fun _ _ _ _ => nofun) fun hc hr hm => hr.move hc hm

end Relay

end NameRelay
