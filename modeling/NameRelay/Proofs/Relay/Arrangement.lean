-- SUMMARY: What a piece of work does to faces and routes.
import NameRelay.Proofs.Relay.Moves

/-!
# Arrangements

Where its faces are and where its routes lead is how a relay is arranged. Most work leaves that
alone: packets are handled, timers go off and flags are set. The rest makes one face, tears one down,
or sets or removes a route. `Work.arranged` says so, once for every piece of work, and what is to be shown of
faces and routes is shown of arrangements.
-/

namespace NameRelay

/-- The face as far as it is at its place, its interface and its address. -/
def Face.inPlace (f : Face) : Face := .fresh f.interface f.address {} 0 ⟨0⟩

namespace Relay

/-- The same keys stand for faces at the same places. -/
def SamePlaces (r s : Relay) : Prop :=
  s.faces.mapEntries Face.inPlace = r.faces.mapEntries Face.inPlace

namespace SamePlaces

variable {r s : Relay}

theorem of_faces (h : s.faces = r.faces) : SamePlaces r s := by rw [SamePlaces, h]

theorem of_sameFaces (h : SameFaces r s) : SamePlaces r s := by
  have hplaces (faces : Slots Face) :
      (faces.mapEntries Face.unmarked).mapEntries Face.inPlace = faces.mapEntries Face.inPlace := by
    rw [Slots.mapEntries_mapEntries]
    rfl
  rw [SamePlaces, ← hplaces, h, hplaces]

theorem modifyFace (r : Relay) (key : FaceKey) {g : Face → Face}
    (h : ∀ f, (g f).inPlace = f.inPlace) : SamePlaces r (r.modifyFace key g) :=
  Slots.mapEntries_modify fun f _ => h f

/-- A face is at the place where it was. -/
theorem face? (h : SamePlaces r s) {key : FaceKey} {g : Face} (hg : s.face? key = some g) :
    ∃ f, r.face? key = some f ∧ g.interface = f.interface ∧ g.address = f.address := by
  have hget := congrArg (·.get? key) h
  have hg' : s.faces.get? key = some g := hg
  simp only [Slots.get?_mapEntries, hg', Option.map_some] at hget
  obtain ⟨f, hf, hsame⟩ := Option.map_eq_some_iff.1 hget.symm
  exact ⟨f, hf, (congrArg Face.interface hsame.symm :), (congrArg Face.address hsame.symm :)⟩

theorem contains (h : SamePlaces r s) (key : FaceKey) :
    s.faces.contains key = r.faces.contains key := by
  have hget := congrArg (fun faces => (faces.get? key).isSome) h
  simp only [Slots.get?_mapEntries, Option.isSome_map] at hget
  exact hget

end SamePlaces

/-- What becomes of the faces and the routes of a relay in a piece of work. -/
inductive Arranged (down : Prop) : Relay → Relay → Prop where
  | kept {r s : Relay} (hfaces : SamePlaces r s) (hlocal : s.localFace = r.localFace)
      (hroutes : s.routes = r.routes) : Arranged down r s
  /-- A face is made for an address that has none. -/
  | newFace {r : Relay} {f : Face} {index : Nat} (hindex : f.interface = some index)
      (hnew : r.findFace? index f.address = none) :
      Arranged down r { r with faces := (r.faces.insert f).2 }
  /-- The face that stands for the application is made. -/
  | newApplicationFace {r : Relay} {f : Face} (hf : f.interface = none)
      (hnew : r.localFace.filter r.faces.contains = none) :
      Arranged down r { r with
        faces := (r.faces.insert f).2
        localFace := some (r.faces.insert f).1 }
  | removeFace (h : down) (r : Relay) (key : FaceKey) : Arranged down r (r.removeFace key).2
  /-- A route is set to a face that there is, or to the application. -/
  | newRoute {r : Relay} (name : Name) {destination : Destination}
      (h : ∀ key, destination = .face key → r.faces.contains key = true) :
      Arranged down r { r with routes := (r.routes.insert name destination).2 }
  | removeRoute (r : Relay) (name : Name) :
      Arranged down r { r with routes := (r.routes.remove name).2 }

namespace Arranged

variable {down : Prop} {r s : Relay}

theorem of_standing (h : s.standing = r.standing) : Arranged down r s :=
  .kept (.of_sameFaces (.of_standing h)) (congrArg Relay.localFace h :) (congrArg Relay.routes h :)

theorem of_tables (h : s.tables = r.tables) : Arranged down r s := of_standing (standing_of_tables h)

end Arranged

/-- A piece of work leaves faces and routes as they are arranged, or changes one of them. -/
theorem Work.arranged {down ticks : Prop} {r s : Relay} (hm : Work down ticks r s) : Arranged down r s := by
  cases hm with
  | interest _ _ => exact .of_standing (standing_handleInterest r _ _)
  | content _ _ => exact .of_standing (standing_handleContent r _ _)
  | @publish _ _ packet _ _ hs =>
    have hstored := standing_store r packet { pinned := true }
    rw [hs] at hstored
    exact .of_standing ((standing_servePending _ packet).trans hstored)
  | @refuse _ _ packet _ _ hs =>
    have hstored := standing_store r packet { pinned := true }
    rw [hs] at hstored
    exact .of_standing hstored
  | fragment | flagFace | hear => exact .kept (.modifyFace r _ fun _ => rfl) rfl rfl
  | newFace _ _ hnew => exact .newFace rfl hnew
  | newApplicationFace hnew => exact .newApplicationFace rfl hnew
  | removeFace h => exact .removeFace h r _
  | newRoute name h => exact .newRoute name h
  | removeRoute => exact .removeRoute r _
  | ageContents => exact .of_standing (standing_ageContents r)
  | ageInterests => exact .of_standing (standing_ageInterests r)
  | clearToSend => exact .of_tables (tables_of_still (clearToSend_still r _))
  | armAgeing =>
    obtain ⟨timer, htables⟩ := tables_armAgeing r
    exact .kept (.of_sameFaces (faces_of_tables htables :)) (congrArg Relay.localFace htables :)
      (congrArg Relay.routes htables :)
  | stop =>
    have htables := tables_stop r
    exact .kept (.of_sameFaces (faces_of_tables htables :)) (congrArg Relay.localFace htables :)
      (congrArg Relay.routes htables :)
  | log | removeContent | setCacheLimit | newInterface | pace | nextNonce | disarm | clock
    | expire => exact .kept (.of_faces rfl) rfl rfl

end Relay

end NameRelay
