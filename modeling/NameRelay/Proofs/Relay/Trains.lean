-- SUMMARY: How much of a packet goes out is settled when its face takes it off the queue.
import Mathlib.Data.List.TakeDrop
import Mathlib.Data.List.TakeWhile
import NameRelay.Proofs.Relay.Flow

/-!
# Trains

A packet that a face takes off its queue becomes a train of units, as many as it has fragments, and
they are put in the ring one by one. The ring may be full before the last of them: what found room
goes out all the same, and the rest is dropped. So a packet goes out whole or not at all just if the
ring has room for all of its units or for none.
-/

namespace NameRelay

namespace Relay

/-- A face that has no packet in flight takes one off its queue: these are all its units, and there
    is room for so many. -/
def Takes (u : Relay) (key : FaceKey) (index : Nat) (train : Train) : Prop :=
  ∃ f fragments fragmenter, u.face? key = some f ∧ f.interface = some index ∧ f.inFlight = none ∧
    f.fragmenter.fragment train.packet.suite train.packet.bytes = (.ok fragments, fragmenter) ∧
    train.units = fragments.getD [train.packet.bytes] ∧
    train.room = maxQueueLength - (u.units index).length

/-- The units of the face that are given away before it releases another packet. -/
def departures (key : FaceKey) (after : List Sign) : List Bytes :=
  (after.takeWhile fun sign => (sign.train? key).isNone).filterMap (Sign.sent? key)

section

variable {r s u v : Relay} {key : FaceKey} {index : Nat} {sign : Sign} {train : Train}
  {after : List Sign}

theorem Takes.at (h : u.Takes key index train) : u.At key index := by
  obtain ⟨f, fragments, fragmenter, hf, hindex, -⟩ := h
  exact ⟨f, hf, hindex⟩

theorem Takes.at_unique (h : u.Takes key index train) {j : Nat} (hj : u.At key j) : index = j := by
  obtain ⟨f, -, -, hf, hindex, -⟩ := h
  obtain ⟨g, hg, hhere⟩ := hj
  cases hf.symm.trans hg
  exact Option.some.inj (hindex.symm.trans hhere)

theorem own_of_unitsOf (h : r.unitsOf key index = 0) : r.own key index = [] := by
  rw [unitsOf, List.countP_eq_length_filter, List.length_eq_zero_iff] at h
  rw [own, h, List.map_nil]

/-- A face that has no packet in flight has no units left in the ring. -/
theorem own_of_idle (hu : u.Accounted) {f : Face} (hf : u.face? key = some f)
    (hindex : f.interface = some index) (hidle : f.inFlight = none) : u.own key index = [] :=
  own_of_unitsOf ((Face.counts_of_none hidle).1 (hu.counted key f index hf hindex))

theorem Takes.own (h : u.Takes key index train) (hu : u.Accounted) : u.own key index = [] := by
  obtain ⟨f, fragments, fragmenter, hf, hindex, hidle, -⟩ := h
  exact own_of_idle hu hf hindex hidle

theorem takes_of_step (h : Step u sign v) (hsign : sign.train? key = some train) :
    sign = .released key train ∧ ∃ index, u.Takes key index train := by
  cases h with
  | @released k f index i p rest fragments fragmenter hf hindex hi hidle hqueue hcut =>
    obtain ⟨rfl, htrain⟩ := Option.ite_none_right_eq_some.1 hsign
    cases htrain
    exact ⟨rfl, index, f, fragments, fragmenter, hf, hindex, hidle, hcut, rfl, rfl⟩
  | added | removed | opened | queued | uncut | sent => cases hsign

/-- What a face has in the ring goes out before it releases another packet. -/
theorem departures_append (hr : r.Accounted) (hat : r.At key index) (h : Steps r after s)
    (hkept : .removed key ∉ after) : ∃ left, departures key after ++ left = r.own key index ∧
      (s.own key index = [] ∨ (∃ sign ∈ after, (sign.train? key).isSome) → left = []) := by
  -- up to the next release nothing comes in, so what was there is what went out and what is left
  have hspan {s : Relay} {span : List Sign} (h : Steps r span s) (hkept : .removed key ∉ span)
      (hspan : ∀ sign ∈ span, (sign.train? key).isNone = true) :
      span.filterMap (Sign.sent? key) ++ s.own key index = r.own key index ∧ s.At key index := by
    have hflow := Flow.of_steps hr hat h hkept
    have hnone : span.filterMap (Sign.train? key) = [] :=
      List.filterMap_eq_nil_iff.2 fun sign hmem => Option.isNone_iff_eq_none.1 (hspan sign hmem)
    refine ⟨hflow.ring.trans ?_, hflow.stays⟩
    rw [hnone, List.flatMap_nil, List.append_nil]
  cases hnext : after.find? fun sign => (sign.train? key).isSome with
  | none =>
    have hall : ∀ sign ∈ after, (sign.train? key).isNone = true := fun sign hmem =>
      Option.isNone_iff_eq_none.2 (Option.not_isSome_iff_eq_none.1 (List.find?_eq_none.1 hnext sign hmem))
    refine ⟨s.own key index, ?_, fun hgone => hgone.resolve_right fun ⟨sign, hmem, hsome⟩ => ?_⟩
    · rw [departures, List.takeWhile_eq_self_iff.2 hall]
      exact (hspan h hkept hall).1
    · exact List.find?_eq_none.1 hnext sign hmem hsome
  | some next =>
    obtain ⟨hsome, span, rest, rfl, hbefore⟩ := List.find?_eq_some_iff_append.1 hnext
    have hall : ∀ sign ∈ span, (sign.train? key).isNone = true := fun sign hmem => by
      simpa using hbefore sign hmem
    obtain ⟨u, v, hsteps, hstep, -⟩ := h.split rfl
    obtain ⟨hring, hstays⟩ := hspan hsteps (fun hmem => hkept (List.mem_append_left _ hmem)) hall
    obtain ⟨train, htrain⟩ := Option.isSome_iff_exists.1 hsome
    obtain ⟨-, j, htakes⟩ := takes_of_step hstep htrain
    have hempty := (htakes.at_unique hstays) ▸ htakes.own (hr.steps hsteps)
    rw [hempty] at hring
    have hstop : (next :: rest).takeWhile (fun sign => (sign.train? key).isNone) = [] :=
      List.takeWhile_cons_of_neg (by simp [htrain])
    refine ⟨[], ?_, fun _ => rfl⟩
    rw [departures, List.takeWhile_append_of_pos hall, hstop, List.append_nil, List.append_nil]
    exact (List.append_nil _).symm.trans hring

/-- Of a packet that is taken off its queue the first units go out, as many as there is room for. -/
theorem departures_of_takes (hu : u.Accounted) (h : Step u (.released key train) v)
    (hsteps : Steps v after s) (hkept : .removed key ∉ after) :
    ∃ index, u.Takes key index train ∧ departures key after <+: train.units ∧
      (s.own key index = [] ∨ (∃ sign ∈ after, (sign.train? key).isSome) →
        departures key after = train.units.take train.room) := by
  obtain ⟨-, index, htakes⟩ := takes_of_step h (if_pos rfl)
  have hflow := Flow.single hu htakes.at h nofun
  have hloaded : v.own key index = train.loaded := by
    have hring := hflow.ring
    have htrain : [Sign.released key train].filterMap (Sign.train? key) = [train] := by
      simp [Sign.train?]
    rw [htakes.own hu, htrain, List.flatMap_singleton] at hring
    exact hring
  obtain ⟨left, hleft, hgone⟩ := departures_append (hu.step h) hflow.stays hsteps hkept
  rw [hloaded] at hleft
  refine ⟨index, htakes, ?_, fun hend => ?_⟩
  · have hprefix : departures key after <+: train.loaded := ⟨left, hleft⟩
    exact hprefix.trans (List.take_prefix ..)
  · rw [hgone hend, List.append_nil] at hleft
    exact hleft

end

theorem take_whole_iff {α : Type} (l : List α) (n : Nat) :
    l.take n = l ∨ l.take n = [] ↔ l.length ≤ n ∨ n = 0 := by
  rw [List.take_eq_self_iff, List.take_eq_nil_iff]
  constructor
  · rintro (hle | hzero | rfl)
    · exact .inl hle
    · exact .inr hzero
    · exact .inl (Nat.zero_le n)
  · exact Or.imp_right .inl

/-- Throughout every run, and whatever else happens meanwhile: of each packet that a face takes off
    its queue the first units go out, in order, as many as the ring has room for at that time. All of
    them go, or none, just if there is room for all or for none. -/
theorem departures_whole_iff {r : Relay} (hr : Reachable r) :
    (∀ calls, ∃ trace, Steps r trace (r.performAll calls)) ∧
    ∀ s trace, Steps r trace s →
      s.sends = r.sends ++ trace.filterMap Sign.effect? ∧
      ∀ before key train after, trace = before ++ .released key train :: after →
        .removed key ∉ after →
        ∃ u index, Steps r before u ∧ u.Takes key index train ∧
          departures key after <+: train.units ∧
          (s.own key index = [] ∨ (∃ sign ∈ after, (sign.train? key).isSome) →
            departures key after = train.units.take train.room ∧
            (departures key after = train.units ∨ departures key after = [] ↔
              train.units.length ≤ train.room ∨ train.room = 0)) := by
  refine ⟨fun calls => Traced.performAll hr.balanced calls, fun s trace h => ⟨sends_steps h, ?_⟩⟩
  intro before key train after htrace hkept
  obtain ⟨u, v, hbefore, hstep, hafter⟩ := h.split htrace
  have hu := hr.balanced.accounted.steps hbefore
  obtain ⟨index, htakes, hprefix, hgone⟩ := departures_of_takes hu hstep hafter hkept
  refine ⟨u, index, hbefore, htakes, hprefix, fun hend => ⟨hgone hend, ?_⟩⟩
  rw [hgone hend]
  exact take_whole_iff train.units train.room

/-- The units at an interface may all be given away, one after the other. -/
theorem exists_emptied {r : Relay} (hr : r.Accounted) (index : Nat) :
    ∃ trace s, Steps r trace s ∧ s.units index = [] ∧
      ∀ sign ∈ trace, ∃ unit, sign = .sent index unit := by
  induction hunits : r.units index generalizing r with
  | nil => exact ⟨[], r, .refl r, hunits, nofun⟩
  | cons unit rest ih =>
    cases hi : r.interfaces[index]? with
    | none =>
      rw [units, hi] at hunits
      cases hunits
    | some i =>
      obtain ⟨key, f, hkey, hf, -⟩ := hr.owned index unit (hunits ▸ List.mem_cons_self)
      have hholds := hr.rings i (List.mem_of_getElem? hi)
      rw [← units_of_interface hi, hunits] at hholds
      obtain ⟨queue, hpop, -⟩ := hholds.pop?_cons
      obtain ⟨-, hleft, -⟩ := sent_line hr.toLines (hr.counted key) hf hi hpop hkey
      have hstep := Step.sent hf hi hpop hkey
      obtain ⟨trace, s, hsteps, hempty, hall⟩ := ih (hr.step hstep)
        (List.cons.inj (hleft.symm.trans hunits)).2
      refine ⟨_, s, (Steps.single hstep).trans hsteps, hempty, fun sign hmem => ?_⟩
      rcases List.mem_cons.1 hmem with rfl | hmem
      · exact ⟨unit, rfl⟩
      · exact hall sign hmem

/-- A relay with one face, whose link carries one byte in each fragment. -/
def narrow : Relay :=
  ((Relay.fresh (Host.fresh ⟨0⟩ (fun _ => none) fun _ => true)).perform
    (.addInterface .application 13 {})).perform (.addFace 0 (.path "reader") {})

theorem reachable_narrow : Reachable narrow := ((Reachable.fresh _ _ _).perform _).perform _

/-- The face of it. -/
def narrowFace : Face := .fresh (some 0) (.path "reader") {} 13 ⟨0⟩

/-- A packet that takes 65 fragments there. -/
def longPacket : QueuedPacket := ⟨.ndn, List.replicate 65 0⟩

theorem fragment_longPacket : ∃ fragments fragmenter,
    (Fragmenter.ofMtu 13).fragment longPacket.suite longPacket.bytes =
      (.ok (some fragments), fragmenter) ∧ fragments.length = 65 := by
  have hlength : ((Fragmenter.ofMtu 13).fragment longPacket.suite longPacket.bytes).1.toOption.map
      (·.map List.length) = some (some 65) := by decide +kernel
  cases hcut : (Fragmenter.ofMtu 13).fragment longPacket.suite longPacket.bytes with
  | mk outcome fragmenter =>
    rw [hcut] at hlength
    match outcome, hlength with
    | .ok (some fragments), hlength =>
      exact ⟨fragments, fragmenter, rfl, Option.some.inj (Option.some.inj hlength)⟩

/-- Of a packet in 65 fragments 64 go out, though the interface was idle. -/
theorem longPacket_cut : ∃ before train after s,
    Steps narrow (before ++ .released ⟨0, 0⟩ train :: after) s ∧ .removed ⟨0, 0⟩ ∉ after ∧
      s.own ⟨0, 0⟩ 0 = [] ∧ train.packet = longPacket ∧
      departures ⟨0, 0⟩ after = train.units.take 64 ∧ train.units.length = 65 ∧
      ¬(departures ⟨0, 0⟩ after = train.units ∨ departures ⟨0, 0⟩ after = []) := by
  obtain ⟨fragments, fragmenter, hcut, hlength⟩ := fragment_longPacket
  let queued : Relay := narrow.modifyFace ⟨0, 0⟩ fun f => { f with queue := f.queue ++ [longPacket] }
  have hqueued : Step narrow (.queued ⟨0, 0⟩ longPacket) queued :=
    .queued (f := narrowFace) rfl rfl longPacket
  have hreleased := @Step.released queued ⟨0, 0⟩ { narrowFace with queue := [longPacket] } 0
    (.fresh .application 13 {}) longPacket [] (some fragments) fragmenter rfl rfl rfl rfl rfl hcut
  have hnarrow := reachable_narrow.balanced.accounted
  obtain ⟨after, s, hafter, hempty, hsent⟩ := exists_emptied ((hnarrow.step hqueued).step hreleased) 0
  have hkept : .removed ⟨0, 0⟩ ∉ after := fun hmem => by
    obtain ⟨unit, hunit⟩ := hsent _ hmem
    cases hunit
  have hsteps := (Steps.single hqueued).trans ((Steps.single hreleased).trans hafter)
  obtain ⟨u, index, hbefore, htakes, -, hgone⟩ :=
    ((departures_whole_iff reachable_narrow).2 s _ hsteps).2 [.queued ⟨0, 0⟩ longPacket] ⟨0, 0⟩ _ after
      rfl hkept
  have hat : narrow.At ⟨0, 0⟩ 0 := ⟨narrowFace, rfl, rfl⟩
  cases htakes.at_unique (Flow.of_steps hnarrow hat hbefore (by simp)).stays
  have hown : s.own ⟨0, 0⟩ 0 = [] := by
    rw [own, hempty]
    rfl
  obtain ⟨hdepartures, hwhole⟩ := hgone (.inl hown)
  refine ⟨_, _, after, s, hsteps, hkept, hown, rfl, hdepartures, hlength, fun hall => ?_⟩
  rcases hwhole.1 hall with hle | hzero
  · have hfits : 65 ≤ 64 := hlength.symm.trans_le hle
    exact absurd hfits (by decide)
  · have hfull : 64 = 0 := hzero
    cases hfull

end Relay

end NameRelay
