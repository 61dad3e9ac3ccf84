-- SUMMARY: Whatever a table refers to is there, and the key of a face that went resolves to nothing.
import NameRelay.Proofs.Relay.Arrangement
import NameRelay.Proofs.Relay.Balance
import NameRelay.Proofs.Relay.Routed
import NameRelay.Proofs.Table.Generations

/-!
# References

Pending interests, routes and units in rings refer to faces by their keys. Faces come and go: they
are made when packets arrive and torn down by request and in the sweep, and their slots are used
again. In every reachable state all keys that are referred to resolve, and the key of a face that
went does not resolve again, unless its slot has lost as many faces as a word has values.

For the last of these, a call either lets the arena of faces grow or lets it shrink. So the generation
of a slot counts the faces that it lost, call by call.
-/

namespace NameRelay

namespace Relay

variable {ticks : Prop} {r s : Relay}

/-! ## Calls let the faces grow or shrink -/

theorem SamePlaces.slot? (h : SamePlaces r s) (index : Nat) :
    s.faces.slot? index = r.faces.slot? index := Slots.slot?_eq_of_mapEntries h index

/-- Where no face is torn down the faces grow. -/
theorem grows_of_work (hc : r.Consistent) (h : Work False ticks r s) : Slots.Grows r.faces s.faces := by
  cases h.arranged with
  | kept hfaces => exact .of_slot? hfaces.slot?
  | newFace | newApplicationFace => exact .insert hc.faces _
  | removeFace hdown => exact hdown.elim
  | newRoute | removeRoute => exact .of_slot? fun _ => rfl

theorem grows_of_works (hc : r.Consistent) (h : Works False ticks r s) : Slots.Grows r.faces s.faces := by
  induction h with
  | refl => exact .of_slot? fun _ => rfl
  | tail hworks hwork ih => exact ih.trans (grows_of_work (hc.moves (Works.moves hworks)) hwork)

theorem shrinks_removeFace (r : Relay) (key : FaceKey) :
    Slots.Shrinks r.faces (r.removeFace key).2.faces := by
  rw [faces_removeFace]
  exact .remove r.faces key

theorem SameFaces.shrinks (h : SameFaces r s) : Slots.Shrinks r.faces s.faces :=
  .of_slot? (SamePlaces.of_sameFaces h).slot?

theorem shrinks_ageFaces (r : Relay) : Slots.Shrinks r.faces r.ageFaces.faces :=
  List.foldlRecOn (motive := fun s : Relay => Slots.Shrinks r.faces s.faces) _ _
    (.of_slot? fun _ => rfl) fun s hs key _ => hs.trans (shrinks_removeFace s key)

theorem shrinks_age (r : Relay) : Slots.Shrinks r.faces r.age.faces := by
  have hstanding := (standing_ageInterests r.ageContents).trans (standing_ageContents r)
  exact (SameFaces.of_standing hstanding).shrinks.trans (shrinks_ageFaces _)

theorem shrinks_armAgeing (r : Relay) : Slots.Shrinks r.faces r.armAgeing.2.faces := by
  obtain ⟨timer, htables⟩ := tables_armAgeing r
  exact SameFaces.shrinks (faces_of_tables htables :)

/-- In the sweep the faces shrink. -/
theorem shrinks_onTimer_ageing (r : Relay) : Slots.Shrinks r.faces (r.onTimer .ageing).faces := by
  have harmed := (shrinks_age { r with ageingTimer := none }).trans (shrinks_armAgeing _)
  generalize hs : ({ r with ageingTimer := none } : Relay).age.armAgeing.2 = s at harmed
  rcases onTimer_ageing_cases r hs with heq | ⟨text, heq⟩ <;> rw [heq] <;> exact harmed

/-- Every call lets the faces grow, or it lets them shrink. -/
theorem grows_or_shrinks (h : Reachable r) (c : Call) :
    Slots.Grows r.faces (r.perform c).faces ∨ Slots.Shrinks r.faces (r.perform c).faces := by
  by_cases hdown : c.TearsDown
  · refine .inr ?_
    cases c with
    | removeFace key => exact shrinks_removeFace r key
    | onTimer event =>
      cases event with
      | ageing => exact shrinks_onTimer_ageing r
      | clearToSend => exact hdown.elim
    | _ => exact hdown.elim
  · have hworks := works_perform h.consistent h c
    rw [eq_false hdown] at hworks
    exact .inl (grows_of_works h.consistent hworks)

/-! ## The faces that a slot loses -/

/-- How many faces a slot loses in a run. No call both makes a face and tears one down, so none that
    goes is overlooked. -/
def lostFaces (index : Nat) : Relay → List Call → Nat
  | _, [] => 0
  | r, c :: calls => r.faces.lost (r.perform c).faces index + lostFaces index (r.perform c) calls

theorem lostFaces_append (index : Nat) (r : Relay) (before after : List Call) :
    r.lostFaces index (before ++ after) =
      r.lostFaces index before + (r.performAll before).lostFaces index after := by
  induction before generalizing r with
  | nil => simp [lostFaces, performAll]
  | cons c before ih =>
    simp only [List.cons_append, lostFaces, ih, Nat.add_assoc]
    rfl

/-- A run raises the generation of a slot by the number of faces that it loses. -/
theorem slot?_performAll (h : Reachable r) {index : Nat} {generation : UInt32} {taken : Bool}
    (hslot : r.faces.slot? index = some (generation, taken)) (calls : List Call) :
    ∃ left, (r.performAll calls).faces.slot? index =
        some (generation + UInt32.ofNat (r.lostFaces index calls), left) ∧
      (r.lostFaces index calls = 0 → taken = true → left = true) := by
  induction calls generalizing r generation taken with
  | nil => exact ⟨taken, by simpa [lostFaces, performAll] using hslot, fun _ => id⟩
  | cons c calls ih =>
    obtain ⟨mid, hmid, hkept⟩ := Slots.slot?_of_grows_or_shrinks (grows_or_shrinks h c) hslot
    obtain ⟨left, hleft, hkept'⟩ := ih (h.perform c) hmid
    refine ⟨left, ?_, fun hnone htaken => ?_⟩
    · rw [lostFaces, UInt32.ofNat_add, ← UInt32.add_assoc]
      exact hleft
    · rw [lostFaces, Nat.add_eq_zero_iff] at hnone
      exact hkept' hnone.2 (hkept hnone.1 htaken)

/-- The key of a face that went resolves to nothing, whatever came into its slot. -/
theorem face?_eq_none_of_gone (h : Reachable r) {key : FaceKey}
    (hthere : r.faces.contains key = true) {before after : List Call}
    (hgone : (r.performAll before).face? key = none)
    (hfew : r.lostFaces key.index (before ++ after) < 2 ^ 32) :
    (r.performAll (before ++ after)).face? key = none := by
  have hslot := Slots.contains_iff_slot?.1 hthere
  have hlost : r.lostFaces key.index before ≠ 0 := by
    intro hnone
    obtain ⟨left, hbefore, hkept⟩ := slot?_performAll h hslot before
    rw [hnone, hkept hnone rfl] at hbefore
    have hresolves : (r.performAll before).faces.contains key = true :=
      Slots.contains_iff_slot?.2 (by simpa using hbefore)
    obtain ⟨f, hf⟩ := Slots.contains_iff.1 hresolves
    cases hgone.symm.trans hf
  obtain ⟨left, hafter, -⟩ := slot?_performAll h hslot (before ++ after)
  refine Slots.get?_of_generation_ne hafter fun hsame => ?_
  have hzero : UInt32.ofNat (r.lostFaces key.index (before ++ after)) = 0 := by
    simpa using hsame
  have hnone : r.lostFaces key.index (before ++ after) = 0 := by
    have hnat := congrArg UInt32.toNat hzero
    rwa [UInt32.toNat_ofNat_of_lt' hfew] at hnat
  rw [lostFaces_append] at hnone
  omega

/-! ## All references -/

/-- In every reachable state whatever refers to a face refers to one that there is. With every
    pending interest there waits somebody, each face once, and all of them exist; so do the faces
    that routes lead to; and every unit in a ring is of a face of that interface. The key of a face
    resolves to nothing once the face went, through any further calls, unless the slot of the face
    lost 2³² faces. -/
theorem references_resolve (h : Reachable r) :
    (∀ key e, r.pending.get? key = some e → e.faces ≠ [] ∧ e.faces.Nodup ∧
      ∀ face ∈ e.faces, r.faces.contains face = true) ∧
    (∀ route ∈ r.routes.routes, ∀ key, route.destination = .face key →
      r.faces.contains key = true) ∧
    (∀ index i, r.interfaces[index]? = some i → ∀ unit ∈ i.queue.toList,
      ∃ key f, unit.face = some key ∧ r.face? key = some f ∧ f.interface = some index) ∧
    ∀ key, r.faces.contains key = true → ∀ before after,
      (r.performAll before).face? key = none →
      r.lostFaces key.index (before ++ after) < 2 ^ 32 →
      (r.performAll (before ++ after)).face? key = none := by
  have hc := h.consistent
  refine ⟨fun key e he => ⟨?_, hc.once key e he, hc.known key e he⟩, h.visited.routed,
    fun index i hi unit hunit => ?_, fun key hthere before after => face?_eq_none_of_gone h hthere⟩
  · have hwaited := hc.waited key e he
    simpa [PendingInterest.faces] using hwaited
  · have hin : unit ∈ r.units index := by
      rw [units_of_interface hi]
      exact hunit
    obtain ⟨key, f, hkey, hf, hhere, -⟩ := h.balanced.owned index unit hin
    exact ⟨key, f, hkey, hf, hhere⟩

/-- A reader asks for something that a route leads to, over a paced interface. -/
def readerCalls : List Call :=
  [.addInterface (.path "own") 0 {}, .setPacing 0 (some 1000), .addFace 0 (.path "next") {},
    .addRoute ⟨.ndn, [[97]], none, .none⟩ .ndn (.face ⟨0, 0⟩),
    .receive 0 [5, 11, 7, 3, 8, 1, 97, 10, 4, 0, 0, 0, 1] (.path "reader")]

/-- When the reader's face has been torn down and its slot is used again, its key resolves to nothing,
    and nothing waits with the interest any more. -/
theorem reader_reference_resolves :
    let r := (Relay.fresh (Host.fresh ⟨0⟩ (fun _ => none) fun _ => true)).performAll readerCalls
    let reused := [Call.removeFace ⟨1, 0⟩] ++ [.addFace 0 (.path "late") {}]
    Reachable r ∧ (∀ key e, r.pending.get? key = some e →
      ∀ face ∈ e.faces, r.faces.contains face = true) ∧ r.pending.size = 1 ∧
      (r.performAll reused).faces.contains ⟨1, 1⟩ = true ∧
      (r.performAll reused).face? ⟨1, 0⟩ = none ∧ (r.performAll reused).pending.size = 0 := by
  have hreachable := (Reachable.fresh ⟨0⟩ (fun _ => none) fun _ => true).performAll readerCalls
  obtain ⟨hpending, -, -, hstale⟩ := references_resolve hreachable
  have hgone : (((Relay.fresh (Host.fresh ⟨0⟩ (fun _ => none) fun _ => true)).performAll
      readerCalls).performAll [.removeFace ⟨1, 0⟩]).faces.contains ⟨1, 0⟩ = false := by
    decide +kernel
  have hdead := hstale ⟨1, 0⟩ (by decide +kernel) [.removeFace ⟨1, 0⟩] [.addFace 0 (.path "late") {}]
    (Option.not_isSome_iff_eq_none.1 (Bool.eq_false_iff.1 hgone)) (by decide +kernel)
  exact ⟨hreachable, fun key e he => (hpending key e he).2.2, by decide +kernel, by decide +kernel,
    hdead, by decide +kernel⟩

end Relay

end NameRelay
