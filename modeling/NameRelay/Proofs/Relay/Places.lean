-- SUMMARY: Faces stay where they are, and no two of them are at the same place.
import NameRelay.Proofs.Relay.Arrangement

/-!
# Places

The place of a face is its interface and its address. A face keeps its place as long as it is there,
and a new face is made only for a place that has none. So in every state of a run what is
transmitted at an interface to an address is of one face. The one face without an interface is that
which stands for the application.
-/

namespace NameRelay

namespace Relay

/-- Every face of `s` was there in `r`, at the same place. -/
def Placed (r s : Relay) : Prop :=
  ∀ key g, s.face? key = some g →
    ∃ f, r.face? key = some f ∧ g.interface = f.interface ∧ g.address = f.address

namespace Placed

variable {r s : Relay}

theorem of_faces (h : s.faces = r.faces) : Placed r s := by
  intro key g hg
  rw [face?, h] at hg
  exact ⟨g, hg, rfl, rfl⟩

theorem trans {t : Relay} (h : Placed r s) (h' : Placed s t) : Placed r t := by
  intro k g hg
  obtain ⟨f, hf, hinterface, haddress⟩ := h' k g hg
  obtain ⟨e, he, hinterface', haddress'⟩ := h k f hf
  exact ⟨e, he, hinterface.trans hinterface', haddress.trans haddress'⟩

theorem of_samePlaces (h : SamePlaces r s) : Placed r s := fun _ _ hg => h.face? hg

theorem modifyFace (r : Relay) (key : FaceKey) {g : Face → Face}
    (h : ∀ f, (g f).inPlace = f.inPlace) : Placed r (r.modifyFace key g) :=
  of_samePlaces (.modifyFace r key h)

theorem removeFace (r : Relay) (key : FaceKey) : Placed r (r.removeFace key).2 := by
  intro k f hf
  rw [face?_removeFace] at hf
  split at hf
  · cases hf
  · exact ⟨f, hf, rfl, rfl⟩

/-- Every move leaves the faces at their places, or makes a face for a place that has none. -/
theorem of_move (hm : Move r s) : Placed r s ∨ ∃ f, s.faces = (r.faces.insert f).2 ∧
    ∀ index, f.interface = some index → r.findFace? index f.address = none := by
  cases hm.arranged with
  | kept hfaces => exact .inl (of_samePlaces hfaces)
  | newFace hindex hnew =>
    refine .inr ⟨_, rfl, fun index hplace => ?_⟩
    cases hindex.symm.trans hplace
    exact hnew
  | newApplicationFace hf =>
    exact .inr ⟨_, rfl, fun index hplace => by cases hf.symm.trans hplace⟩
  | removeFace => exact .inl (removeFace r _)
  | newRoute | removeRoute => exact .inl (of_faces rfl)

end Placed

/-- No face is at the place. -/
def Vacant (r : Relay) (index : Nat) (address : FaceAddress) : Prop :=
  ∀ key f, r.face? key = some f → f.interface = some index → f.address ≠ address

namespace Vacant

variable {r s : Relay} {index : Nat} {address : FaceAddress}

theorem of_findFace? (h : r.findFace? index address = none) : r.Vacant index address := by
  intro key f hf hindex haddress
  have hmiss := Slots.find?_eq_none_iff.1 h key f hf
  rw [hindex, haddress, beq_self_eq_true, beq_self_eq_true] at hmiss
  cases hmiss

theorem of_placed (hr : r.Vacant index address) (h : Placed r s) : s.Vacant index address := by
  intro key g hg hindex haddress
  obtain ⟨f, hf, hinterface, hsame⟩ := h key g hg
  exact hr key f hf (hinterface.symm.trans hindex) (hsame.symm.trans haddress)

end Vacant

/-- No two faces of interfaces are at the same place. -/
def Addressed (r : Relay) : Prop :=
  ∀ k l f g index, r.face? k = some f → r.face? l = some g → f.interface = some index →
    g.interface = some index → f.address = g.address → k = l

namespace Addressed

variable {r s : Relay}

theorem of_placed (hr : r.Addressed) (h : Placed r s) : s.Addressed := by
  intro k l f g index hf hg hk hl haddress
  obtain ⟨f', hf', hinterface, hsame⟩ := h k f hf
  obtain ⟨g', hg', hinterface', hsame'⟩ := h l g hg
  exact hr k l f' g' index hf' hg' (hinterface.symm.trans hk) (hinterface'.symm.trans hl)
    (hsame.symm.trans (haddress.trans hsame'))

/-- A face for a place that has none is the only one there. -/
theorem insertFace (hr : r.Addressed) (hfaces : r.faces.WellFormed) {f : Face}
    (hs : s.faces = (r.faces.insert f).2)
    (hnew : ∀ index, f.interface = some index → r.findFace? index f.address = none) :
    s.Addressed := by
  have hfree : ∀ index, f.interface = some index → r.Vacant index f.address := fun index hindex =>
    .of_findFace? (hnew index hindex)
  have hget (k : FaceKey) : s.face? k =
      if k = (r.faces.insert f).1 then some f else r.face? k := by
    rw [face?, hs]
    split
    · rename_i hk
      rw [hk, Slots.get?_insert_self hfaces]
    · rename_i hk
      rw [Slots.get?_insert_of_ne hfaces f hk, face?]
  intro k l g g' index hg hg' hk hl haddress
  rw [hget] at hg hg'
  split at hg <;> split at hg'
  · rename_i hkey hkey'
    exact hkey.trans hkey'.symm
  · cases hg
    exact absurd haddress.symm (hfree index hk l g' hg' hl)
  · cases hg'
    exact absurd haddress (hfree index hl k g hg hk)
  · exact hr k l g g' index hg hg' hk hl haddress

theorem move (hc : r.Consistent) (hr : r.Addressed) (hm : Move r s) : s.Addressed := by
  rcases Placed.of_move hm with hplaced | ⟨f, hs, hnew⟩
  · exact hr.of_placed hplaced
  · exact hr.insertFace hc.faces hs hnew

end Addressed

/-- A face without an interface is the one that stands for the application. -/
def AtHome (r : Relay) : Prop :=
  ∀ key f, r.face? key = some f → f.interface = none → r.localFace = some key

theorem localFace_removeFace (r : Relay) (key : FaceKey) :
    (r.removeFace key).2.localFace = r.localFace ∨
      r.localFace = some key ∧ (r.removeFace key).2.localFace = none := by
  unfold removeFace
  split
  · exact .inl rfl
  · by_cases hlocal : r.localFace = some key
    · exact .inr ⟨hlocal, if_pos hlocal⟩
    · exact .inl (if_neg hlocal)

/-- When the face that stands for the application goes, none stands for it. -/
theorem localFace_removeFace_self {r : Relay} {key : FaceKey} {f : Face}
    (hlocal : r.localFace = some key) (hf : r.face? key = some f) :
    (r.removeFace key).2.localFace = none := by
  have hremoved : (r.faces.remove key).1 = some f := (Slots.remove_fst r.faces key).trans hf
  unfold removeFace
  split
  · rename_i hgone
    rw [hgone] at hremoved
    cases hremoved
  · exact if_pos hlocal

/-- Every move leaves at most one face without an interface. -/
theorem AtHome.move {s : Relay} (hc : r.Consistent) (h : r.AtHome) (hm : Move r s) : s.AtHome := by
  cases hm.arranged with
  | kept hfaces hlocal =>
    intro key g hg hnone
    obtain ⟨f, hf, hinterface, -⟩ := hfaces.face? hg
    exact hlocal.trans (h key f hf (hinterface.symm.trans hnone))
  | newFace hindex =>
    intro key g hg hnone
    rcases Slots.get?_of_get?_insert hg with rfl | hold
    · cases hindex.symm.trans hnone
    · exact h key g hold hnone
  | @newApplicationFace _ f _ hnew =>
    intro key g hg hnone
    by_cases hkey : key = (r.faces.insert f).1
    · exact congrArg some hkey.symm
    · have hold : r.face? key = some g := (Slots.get?_insert_of_ne hc.faces f hkey).symm.trans hg
      rw [h key g hold hnone] at hnew
      simp [Option.filter, Slots.contains_iff.2 ⟨g, hold⟩] at hnew
  | removeFace _ _ gone =>
    intro key g hg hnone
    rw [face?_removeFace] at hg
    split at hg
    · cases hg
    · rename_i hkey
      have hlocal := h key g hg hnone
      rcases localFace_removeFace r gone with heq | ⟨hgone, -⟩
      · exact heq.trans hlocal
      · exact absurd (Option.some.inj (hlocal.symm.trans hgone)) hkey
  | newRoute | removeRoute => exact h

/-- The face that stands for the application is there, and it has no interface. -/
def Homed (r : Relay) : Prop :=
  ∀ key, r.localFace = some key → ∃ f, r.face? key = some f ∧ f.interface = none

/-- The face that stands for the application is not forgotten before it goes. -/
theorem Homed.move {s : Relay} (hc : r.Consistent) (h : r.Homed) (hm : Move r s) : s.Homed := by
  cases hm.arranged with
  | kept hfaces hlocal =>
    intro key hkey
    obtain ⟨f, hf, hnone⟩ := h key (hlocal.symm.trans hkey)
    have hsame : SamePlaces s r := Eq.symm hfaces
    obtain ⟨g, hg, hinterface, -⟩ := hsame.face? hf
    exact ⟨g, hg, hinterface.symm.trans hnone⟩
  | @newFace _ g _ _ _ =>
    intro key hkey
    obtain ⟨f, hf, hnone⟩ := h key hkey
    exact ⟨f, Slots.get?_insert_of_get? hc.faces g hf, hnone⟩
  | @newApplicationFace _ g hg _ =>
    intro key hkey
    cases hkey
    exact ⟨g, Slots.get?_insert_self hc.faces g, hg⟩
  | removeFace _ _ gone =>
    intro key hkey
    have hold : r.localFace = some key := by
      rcases localFace_removeFace r gone with heq | ⟨-, hcleared⟩
      · exact heq.symm.trans hkey
      · cases hcleared.symm.trans hkey
    obtain ⟨f, hf, hnone⟩ := h key hold
    refine ⟨f, ?_, hnone⟩
    rw [face?_removeFace, if_neg, hf]
    rintro rfl
    cases (localFace_removeFace_self hold hf).symm.trans hkey
  | newRoute | removeRoute => exact h

theorem Visited.homed {r : Relay} (h : Visited r) : r.Homed :=
  h.keeps (fun _ _ _ _ => by simp [Homed, withLimits]) fun hc hr hm => hr.move hc hm

theorem Visited.atHome {r : Relay} (h : Visited r) : r.AtHome :=
  h.keeps (fun _ _ _ _ => by simp [AtHome, withLimits, face?]) fun hc hr hm => hr.move hc hm

theorem Visited.addressed {r : Relay} (h : Visited r) : r.Addressed :=
  h.keeps (fun _ _ _ _ => by simp [Addressed, withLimits, face?]) fun hc hr hm => hr.move hc hm

/-- No two faces have their interface and their address in common. -/
theorem Visited.key_eq_of_place {r : Relay} (h : Visited r) {k l : FaceKey} {f g : Face}
    (hf : r.face? k = some f) (hg : r.face? l = some g) (hinterface : f.interface = g.interface)
    (haddress : f.address = g.address) : k = l := by
  cases hindex : f.interface with
  | some index =>
    exact h.addressed k l f g index hf hg hindex (hinterface.symm.trans hindex) haddress
  | none =>
    have hk := h.atHome k f hf hindex
    have hl := h.atHome l g hg (hinterface.symm.trans hindex)
    exact Option.some.inj (hk.symm.trans hl)

end Relay

end NameRelay
