-- SUMMARY: The books of faces and rings agree in every reachable state.
import NameRelay.Proofs.Relay.Queues

/-!
# Balance

Every act keeps the books of faces and rings, and so do the calls that are about timers. In every
reachable state the units of a face in the ring are what remains of its packet in flight, and no
packet waits at a face that has none in flight.
-/

namespace NameRelay

/-- What the books show of an interface. -/
def Interface.outlet (i : Interface) : Nat × Ring Transmission maxQueueLength × Bool :=
  (i.mtu, i.queue, i.draining)

namespace Relay

/-! ## What the books do not show -/

/-- The faces and rings, as far as the books go. -/
def queues (r : Relay) : Slots Face × List (Nat × Ring Transmission maxQueueLength × Bool) :=
  (r.faces.mapEntries Face.link, r.interfaces.map Interface.outlet)

theorem queues_of_links {r s : Relay} (h : s.links = r.links) : s.queues = r.queues := by
  have hlinks (r : Relay) : r.links.queues = r.queues := by
    simp only [queues, links, Slots.mapEntries_mapEntries]
    rfl
  rw [← hlinks s, h, hlinks]

theorem queues_modifyInterface (r : Relay) (index : Nat) {g : Interface → Interface}
    (h : ∀ i, (g i).outlet = i.outlet) : (r.modifyInterface index g).queues = r.queues := by
  have hinterfaces : (r.interfaces.modify index g).map Interface.outlet =
      r.interfaces.map Interface.outlet := map_modify_of_eq _ _ _ _ h
  rw [queues, modifyInterface, hinterfaces]
  rfl

theorem queues_setTimer (r : Relay) (delay : Nat) (event : TimerEvent) :
    (r.setTimer delay event).2.queues = r.queues := rfl

theorem queues_armAgeing (r : Relay) : r.armAgeing.2.queues = r.queues := by
  obtain ⟨timer, harm⟩ := armAgeing_eq r
  rw [harm]
  exact queues_setTimer r r.timeouts.ageingInterval .ageing

theorem queues_start (r : Relay) : r.start.2.queues = r.queues := by
  obtain ⟨s, harmed, hs⟩ := start_cases r
  have hsame : s.queues = r.queues := by
    rcases harmed with rfl | rfl
    · rfl
    · exact queues_armAgeing r
  rcases hs with hs | ⟨text, hs⟩ <;> rw [hs]
  · exact hsame
  · exact hsame

theorem queues_stop (r : Relay) : r.stop.queues = r.queues := by
  have hcancelled (handles : List Nat) (s : Relay) :
      (handles.foldl cancelTimer s).queues = s.queues := by
    induction handles generalizing s with
    | nil => rfl
    | cons handle handles ih => exact ih _
  have hdisarmed (s : Relay) : ({ s with
      ageingTimer := none
      interfaces := s.interfaces.map fun i => { i with timer := none } } : Relay).queues =
        s.queues := by
    simp only [queues, List.map_map]
    rfl
  unfold stop
  rw [hdisarmed, cancelAll, hcancelled]

theorem units_of_queues {r s : Relay} (h : s.queues = r.queues) (index : Nat) :
    s.units index = r.units index := by
  have hinterfaces := congrArg (fun q => (q.2[index]?.map fun i => i.2.1.toList).getD []) h
  simp only [queues, List.getElem?_map, Option.map_map] at hinterfaces
  exact hinterfaces

theorem face?_of_queues {r s : Relay} (h : s.queues = r.queues) {key : FaceKey} {g : Face}
    (hg : s.face? key = some g) : ∃ f, r.face? key = some f ∧ f.link = g.link := by
  have hfaces := congrArg (fun q => q.1.get? key) h
  have hg' : s.faces.get? key = some g := hg
  simp only [queues, Slots.get?_mapEntries, hg', Option.map_some] at hfaces
  exact Option.map_eq_some_iff.1 hfaces.symm

theorem interface_of_queues {r s : Relay} (h : s.queues = r.queues) {i : Interface}
    (hi : i ∈ s.interfaces) : ∃ j ∈ r.interfaces, j.outlet = i.outlet := by
  have hmem : i.outlet ∈ s.queues.2 := List.mem_map_of_mem hi
  rw [h] at hmem
  exact List.mem_map.1 hmem

/-! ## Lines and books under changes

What is kept for each face, and for the number of its units in the ring, is kept in the same way
whether every line is settled or only counted. -/

/-- This holds of every face of an interface and the number of its units there. -/
def AllBooks (P : Face → Nat → Prop) (r : Relay) : Prop :=
  ∀ key f index, r.face? key = some f → f.interface = some index → P f (r.unitsOf key index)

section

variable {r s : Relay} {P : Face → Nat → Prop}

theorem Lines.of_queues (hr : r.Lines) (h : s.queues = r.queues) : s.Lines where
  faces := by
    have hfaces : s.faces.mapEntries Face.link = r.faces.mapEntries Face.link := (congrArg (·.1) h :)
    apply Slots.wellFormed_of_mapEntries (f := Face.link)
    rw [hfaces]
    exact Slots.wellFormed_mapEntries hr.faces _
  rings i hi := by
    obtain ⟨j, hj, hsame⟩ := interface_of_queues h hi
    have hring : j.queue = i.queue := (congrArg (·.2.1) hsame :)
    rw [← hring]
    exact hr.rings j hj
  owned index unit hunit := by
    rw [units_of_queues h] at hunit
    obtain ⟨key, g, hkey, hg, hindex, haddress⟩ := hr.owned index unit hunit
    obtain ⟨f, hf, hsame⟩ := face?_of_queues h.symm hg
    exact ⟨key, f, hkey, hf, (congrArg Face.interface hsame :).trans hindex,
      haddress.trans (congrArg Face.address hsame :).symm⟩
  homes key g index hg hindex := by
    obtain ⟨f, hf, hsame⟩ := face?_of_queues h hg
    obtain ⟨i, hi, hmtu⟩ := hr.homes key f index hf ((congrArg Face.interface hsame :).trans hindex)
    have hmem := congrArg (fun q => q.2[index]?) h
    simp only [queues, List.getElem?_map, hi, Option.map_some, Option.map_eq_some_iff] at hmem
    obtain ⟨j, hj, hboth⟩ := hmem
    refine ⟨j, hj, ?_⟩
    have hfragmenter : f.fragmenter = g.fragmenter := (congrArg Face.fragmenter hsame :)
    rw [(Prod.mk.inj hboth).1, ← hmtu, hfragmenter]
  calm i hi := by
    obtain ⟨j, hj, hsame⟩ := interface_of_queues h hi
    exact (congrArg (·.2.2) hsame.symm :).trans (hr.calm j hj)

theorem AllBooks.of_queues (hr : r.AllBooks P) (hP : ∀ {f g n}, P f n → f.link = g.link → P g n)
    (h : s.queues = r.queues) : s.AllBooks P := by
  intro key g index hg hindex
  obtain ⟨f, hf, hsame⟩ := face?_of_queues h hg
  have hkept := hr key f index hf ((congrArg Face.interface hsame :).trans hindex)
  rw [unitsOf, units_of_queues h]
  exact hP hkept hsame

end

namespace Balanced

variable {r s : Relay} {key : FaceKey} {index : Nat}

theorem of_queues (hr : r.Balanced) (h : s.queues = r.queues) : s.Balanced where
  toLines := hr.toLines.of_queues h
  settled := AllBooks.of_queues (P := Face.Fits) hr.settled (fun hfits hsame =>
    hfits.congr (congrArg Face.inFlight hsame.symm :) (congrArg Face.queue hsame.symm :)) h

/-! ## Sending and queueing -/

theorem sendNext (hr : r.Balanced) (h : r.sendNext index = some s) : s.Balanced := by
  obtain ⟨key, f, -, -, hline, hsettled⟩ := sendNext_line hr h
  exact hr.onLine hline hsettled

theorem drain (hr : r.Balanced) (index : Nat) : (r.drain index).Balanced := by
  fun_induction Relay.drain r index with
  | case1 r next h ih => exact ih (hr.sendNext h)
  | case2 => exact hr

theorem kick (hr : r.Balanced) (index : Nat) : (r.kick index).Balanced := by
  have hkicked := kick_cases r index
  generalize r.kick index = s at *
  cases hkicked with
  | absent | busy | empty | waits => exact hr
  | drained => exact hr.drain index
  | @armed s delay _ hset =>
    have hqueues := queues_setTimer r delay (.clearToSend index)
    rw [hset] at hqueues
    exact (hr.of_queues hqueues).of_queues (queues_modifyInterface s index fun _ => rfl)
  | @refused s delay hset text =>
    have hqueues := queues_setTimer r delay (.clearToSend index)
    rw [hset] at hqueues
    exact (hr.of_queues (s := s.log _ _) hqueues).drain index

theorem clearToSend (hr : r.Balanced) (index : Nat) : (r.clearToSend index).Balanced := by
  have hdisarmed := hr.of_queues
    (r.queues_modifyInterface index (g := fun i => { i with timer := none }) fun _ => rfl)
  unfold Relay.clearToSend
  refine kick ?_ index
  cases hnext : (r.modifyInterface index fun i => { i with timer := none }).sendNext index with
  | none => exact hdisarmed
  | some s => exact hdisarmed.sendNext hnext

theorem enqueue (hr : r.Balanced) (key : FaceKey) (suite : Suite) (bytes : Bytes) :
    (r.enqueue key suite bytes).2.Balanced := by
  rcases enqueue_line hr key suite bytes with hquiet | ⟨f, index, t, -, -, hline, hsettled, hs⟩
  · exact hr.of_queues (queues_of_links hquiet)
  · have ht := hr.onLine hline hsettled
    rcases hs with hs | ⟨hs, -⟩
    · exact hs ▸ ht.kick index
    · exact hs ▸ ht

/-! ## Faces and interfaces come and go -/

end Balanced

/-- A new interface has no units. -/
theorem units_insertInterface (r : Relay) (address : FaceAddress) (mtu : Nat) (flags : FaceFlags)
    (index : Nat) : ({ r with interfaces := r.interfaces ++ [.fresh address mtu flags] } :
      Relay).units index = r.units index := by
  rw [units, units, List.getElem?_append]
  split
  · rfl
  · rename_i hbound
    rw [List.getElem?_eq_none (Nat.le_of_not_lt hbound), List.getElem?_singleton]
    split <;> rfl

theorem withdraw_snd (key : FaceKey) (interfaces : List Interface) :
    (withdraw key interfaces).2 = interfaces.map fun i =>
      { i with queue := (i.queue.removeWhere fun unit => unit.face == some key).1 } := by
  induction interfaces with
  | nil => rfl
  | cons i rest ih => exact congrArg (_ :: ·) ih

/-- The units of a face that is torn down are taken out, and no others. -/
theorem units_withdraw {r s : Relay} (hr : r.Lines) (key : FaceKey)
    (hs : s.interfaces = (withdraw key r.interfaces).2) (index : Nat) :
    s.units index = (r.units index).filter (·.face != some key) := by
  rw [units, units, hs, withdraw_snd, List.getElem?_map]
  cases hi : r.interfaces[index]? with
  | none => rfl
  | some i => exact ((hr.rings i (List.mem_of_getElem? hi)).removeWhere _).toList_eq

section

variable {r s : Relay} {key : FaceKey} {f : Face} {index : Nat} {P : Face → Nat → Prop}

/-- No unit is of a key that is no face. -/
theorem Lines.unitsOf_of_none (hr : r.Lines) (hkey : r.face? key = none) (index : Nat) :
    r.unitsOf key index = 0 := by
  refine List.countP_eq_zero.2 fun unit hunit hown => ?_
  obtain ⟨k, f, hk, hf, -⟩ := hr.owned index unit hunit
  rw [hk, beq_iff_eq, Option.some.injEq] at hown
  rw [hown, hkey] at hf
  cases hf

theorem Lines.insertFace (hr : r.Lines) (hhome : ∀ index, f.interface = some index →
      ∃ i, r.interfaces[index]? = some i ∧ f.fragmenter.mtu = (Fragmenter.ofMtu i.mtu).mtu) :
    ({ r with faces := (r.faces.insert f).2 } : Relay).Lines where
  faces := Slots.wellFormed_insert hr.faces f
  rings := hr.rings
  owned index unit hunit := by
    obtain ⟨k, g, hk, hg, hline⟩ := hr.owned index unit hunit
    exact ⟨k, g, hk, Slots.get?_insert_of_get? hr.faces f hg, hline⟩
  homes k g index hg hindex := by
    rcases Slots.get?_of_get?_insert hg with rfl | hold
    · exact hhome index hindex
    · exact hr.homes k g index hold hindex
  calm := hr.calm

/-- A new face has no units. -/
theorem AllBooks.insertFace (hr : r.AllBooks P) (hl : r.Lines) (hnew : P f 0) :
    ({ r with faces := (r.faces.insert f).2 } : Relay).AllBooks P := by
  intro k g index hg hindex
  by_cases hk : k = (r.faces.insert f).1
  · cases (hk ▸ Slots.get?_insert_self hl.faces f).symm.trans hg
    have hnone := hl.unitsOf_of_none (hk ▸ Slots.get?_insert_fresh hl.faces f) index
    exact hnone.symm ▸ hnew
  · exact hr k g index ((Slots.get?_insert_of_ne hl.faces f hk).symm.trans hg) hindex

theorem Lines.insertInterface (hr : r.Lines) (address : FaceAddress) (mtu : Nat)
    (flags : FaceFlags) :
    ({ r with interfaces := r.interfaces ++ [.fresh address mtu flags] } : Relay).Lines := by
  have hunits := units_insertInterface r address mtu flags
  refine ⟨hr.faces, fun i hi => ?_, fun index unit hunit => ?_, fun key f index hf hindex => ?_,
    fun i hi => ?_⟩
  · rcases List.mem_append.1 hi with hold | hnew
    · exact hr.rings i hold
    · rw [List.mem_singleton.1 hnew]
      exact Ring.holds_empty.self
  · rw [hunits] at hunit
    exact hr.owned index unit hunit
  · obtain ⟨i, hi, hmtu⟩ := hr.homes key f index hf hindex
    exact ⟨i, by rw [List.getElem?_append_left (List.getElem?_eq_some_iff.1 hi).1, hi], hmtu⟩
  · rcases List.mem_append.1 hi with hold | hnew
    · exact hr.calm i hold
    · rw [List.mem_singleton.1 hnew]
      rfl

theorem AllBooks.insertInterface (hr : r.AllBooks P) (address : FaceAddress) (mtu : Nat)
    (flags : FaceFlags) :
    ({ r with interfaces := r.interfaces ++ [.fresh address mtu flags] } : Relay).AllBooks P := by
  intro key f index hf hindex
  rw [unitsOf, units_insertInterface]
  exact hr key f index hf hindex

/-- The faces that are left when one is torn down. -/
theorem face?_withdrawn (hfaces : s.faces = (r.faces.remove key).2) {k : FaceKey}
    (hf : s.face? k = some f) : k ≠ key ∧ r.face? k = some f := by
  rw [face?, hfaces, Slots.get?_remove] at hf
  split at hf
  · cases hf
  · rename_i hk
    exact ⟨hk, hf⟩

theorem Lines.withdrawn (hr : r.Lines) (hfaces : s.faces = (r.faces.remove key).2)
    (hinterfaces : s.interfaces = (withdraw key r.interfaces).2) : s.Lines := by
  have hunits := units_withdraw hr key hinterfaces
  rw [withdraw_snd] at hinterfaces
  refine ⟨?_, fun i hi => ?_, fun index unit hunit => ?_, fun k f index hf hindex => ?_,
    fun i hi => ?_⟩
  · rw [hfaces]
    exact Slots.wellFormed_remove hr.faces key
  · rw [hinterfaces] at hi
    obtain ⟨j, hj, rfl⟩ := List.mem_map.1 hi
    exact ((hr.rings j hj).removeWhere _).self
  · rw [hunits, List.mem_filter] at hunit
    obtain ⟨k, f, hk, hf, hline⟩ := hr.owned index unit hunit.1
    have hother : k ≠ key := by
      rintro rfl
      rw [hk] at hunit
      simp at hunit
    refine ⟨k, f, hk, ?_, hline⟩
    rw [face?, hfaces, Slots.get?_remove, if_neg hother]
    exact hf
  · obtain ⟨i, hi, hmtu⟩ := hr.homes k f index (face?_withdrawn hfaces hf).2 hindex
    have hi' := congrArg (·[index]?) hinterfaces
    simp only [List.getElem?_map, hi, Option.map_some] at hi'
    exact ⟨_, hi', hmtu⟩
  · rw [hinterfaces] at hi
    obtain ⟨j, hj, rfl⟩ := List.mem_map.1 hi
    exact hr.calm j hj

theorem AllBooks.withdrawn (hr : r.AllBooks P) (hl : r.Lines)
    (hfaces : s.faces = (r.faces.remove key).2)
    (hinterfaces : s.interfaces = (withdraw key r.interfaces).2) : s.AllBooks P := by
  intro k f index hf hindex
  obtain ⟨hk, hold⟩ := face?_withdrawn hfaces hf
  have hsame : s.unitsOf k index = r.unitsOf k index := by
    rw [unitsOf, units_withdraw hl key hinterfaces]
    exact countP_foreign hk _
  rw [hsame]
  exact hr k f index hold hindex

end

namespace Balanced

variable {r s : Relay} {key : FaceKey} {index : Nat}

theorem insertFace (hr : r.Balanced) {f : Face} (hflight : f.inFlight = none)
    (hqueue : f.queue = []) (hhome : ∀ index, f.interface = some index →
      ∃ i, r.interfaces[index]? = some i ∧ f.fragmenter.mtu = (Fragmenter.ofMtu i.mtu).mtu) :
    ({ r with faces := (r.faces.insert f).2 } : Relay).Balanced where
  toLines := hr.toLines.insertFace hhome
  settled := AllBooks.insertFace (P := Face.Fits) hr.settled hr.toLines
    ⟨(Face.counts_of_none hflight).2 rfl, fun _ => hqueue⟩

theorem insertInterface (hr : r.Balanced) (address : FaceAddress) (mtu : Nat) (flags : FaceFlags) :
    ({ r with interfaces := r.interfaces ++ [.fresh address mtu flags] } : Relay).Balanced where
  toLines := hr.toLines.insertInterface address mtu flags
  settled := AllBooks.insertInterface (P := Face.Fits) hr.settled address mtu flags

/-- With a face its units go, and nobody else's. -/
theorem withdrawn (hr : r.Balanced) (hfaces : s.faces = (r.faces.remove key).2)
    (hinterfaces : s.interfaces = (withdraw key r.interfaces).2) : s.Balanced where
  toLines := hr.toLines.withdrawn hfaces hinterfaces
  settled := AllBooks.withdrawn (P := Face.Fits) hr.settled hr.toLines hfaces hinterfaces

theorem removeFace (hr : r.Balanced) (key : FaceKey) : (r.removeFace key).2.Balanced := by
  unfold Relay.removeFace
  split
  · exact hr
  · rename_i f faces hremoved
    exact hr.withdrawn (congrArg (·.2) hremoved.symm) rfl

/-! ## Runs -/

/-- Every act keeps the balance. -/
theorem act (hr : r.Balanced) (h : Act r s) : s.Balanced := by
  cases h with
  | quiet h => exact hr.of_queues (queues_of_links h)
  | enqueue key suite bytes => exact hr.enqueue key suite bytes
  | newFace h address flags =>
    refine hr.insertFace rfl rfl fun index hindex => ?_
    cases hindex
    exact ⟨_, h, rfl⟩
  | newApplicationFace flags =>
    exact hr.insertFace rfl rfl fun index hindex => by cases hindex
  | removeFace key => exact hr.removeFace key
  | newInterface address mtu flags => exact hr.insertInterface address mtu flags
  | pace index pacing => exact hr.of_queues (queues_modifyInterface r index fun _ => rfl)

theorem acts (hr : r.Balanced) (h : Acts r s) : s.Balanced := by
  induction h with
  | refl => exact hr
  | tail _ hact ih => exact ih.act hact

theorem onTimer (hr : r.Balanced) (event : TimerEvent) : (r.onTimer event).Balanced := by
  cases event with
  | clearToSend index => exact hr.clearToSend index
  | ageing =>
    have hdisarmed : ({ r with ageingTimer := none } : Relay).Balanced := hr.of_queues rfl
    have harmed := (hdisarmed.acts (acts_age _)).of_queues (queues_armAgeing _)
    rcases onTimer_ageing_cases r rfl with hs | ⟨text, hs⟩ <;> rw [hs]
    · exact harmed
    · exact harmed.of_queues (queues_of_links (links_log _ _ _))

/-- Every call keeps the balance. -/
theorem perform (hr : r.Balanced) (c : Call) : (r.perform c).Balanced := by
  cases htimed : c.isTimed with
  | false => exact hr.acts (acts_perform r htimed)
  | true =>
    cases c with
    | start => exact hr.of_queues (queues_start r)
    | stop => exact hr.of_queues (queues_stop r)
    | onTimer event => exact hr.onTimer event
    | expire event =>
      simp only [Relay.perform]
      split
      · exact hr.of_queues rfl
      · exact hr
    | _ => cases htimed

end Balanced

theorem balanced_withLimits (host : Host) (c : Config) : (withLimits host c).Balanced where
  faces := Slots.wellFormed_empty
  rings := by simp [withLimits]
  owned := by simp [withLimits, units]
  homes := by simp [withLimits, face?]
  calm := by simp [withLimits]
  settled := by simp [withLimits, face?, Settled]

/-- In every reachable state the books of faces and rings agree. -/
theorem Reachable.balanced {r : Relay} (h : Reachable r) : r.Balanced := by
  induction h with
  | fresh => exact balanced_withLimits _ _
  | configured now digest grants c h =>
    exact (balanced_withLimits _ c).acts ((acts_configured _ c).of_eq h)
  | perform _ c ih => exact ih.perform c

end Relay

end NameRelay
