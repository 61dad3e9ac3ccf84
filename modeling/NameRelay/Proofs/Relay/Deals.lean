-- SUMMARY: In every run a face gives away units of the packets it took on, in order and once each.
import NameRelay.Proofs.Relay.Turns

/-!
# Deals

As far as sending goes a run is a sequence of deals: a packet is offered to a face, which takes it on
or not, a timer lets an interface go on, and faces and interfaces come and go. Every run is made of
deals, and of each deal the face keeps its turns. So whatever goes to the place of a face, as long
as the face is there, is units of the packets that it took on, in order and each at most once, and
where there is no face nothing goes.
-/

namespace NameRelay

namespace Relay

/-! ## Deals -/

/-- What is seen of a deal. -/
inductive Deal where
  /-- A packet was offered to a face, and this was the answer. -/
  | offered (key : FaceKey) (packet : QueuedPacket) (answer : Except RelayError Bool)
  | added (key : FaceKey) (interface : Option Nat) (address : FaceAddress)
  | removed (key : FaceKey)

/-- The packet that the face took on. -/
def Deal.accepted? (key : FaceKey) : Deal → Option QueuedPacket
  | offered k packet (.ok true) => if k = key then some packet else none
  | _ => none

theorem Deal.accepted?_of_rejected {key k : FaceKey} {packet : QueuedPacket}
    {answer : Except RelayError Bool} (h : answer ≠ .ok true) :
    (Deal.offered k packet answer).accepted? key = none := by
  match answer, h with
  | .error _, _ | .ok false, _ => rfl
  | .ok true, h => exact absurd rfl h

/-- The packets that the face took on, in order. -/
def accepted (key : FaceKey) (deals : List Deal) : List QueuedPacket :=
  deals.filterMap (Deal.accepted? key)

/-- Deals lead from one state to another, and meanwhile other things happen that touch neither queues
    nor rings, and transmit nothing. -/
inductive Deals : Relay → List Deal → Relay → Prop where
  | refl (r : Relay) : Deals r [] r
  | quiet {r s t : Relay} {deals : List Deal} (h : Deals r deals s) (hqueues : t.queues = s.queues)
      (hsends : t.sends = s.sends) : Deals r deals t
  | offered {r s : Relay} {deals : List Deal} (h : Deals r deals s) (key : FaceKey) (suite : Suite)
      (bytes : Bytes) :
      Deals r (deals ++ [.offered key ⟨suite, bytes⟩ (s.enqueue key suite bytes).1])
        (s.enqueue key suite bytes).2
  | clearToSend {r s : Relay} {deals : List Deal} (h : Deals r deals s) (index : Nat) :
      Deals r deals (s.clearToSend index)
  | added {r s : Relay} {deals : List Deal} (h : Deals r deals s) {f : Face}
      (hflight : f.inFlight = none) (hqueue : f.queue = [])
      (hhome : ∀ index, f.interface = some index →
        ∃ i, s.interfaces[index]? = some i ∧ f.fragmenter.mtu = (Fragmenter.ofMtu i.mtu).mtu)
      (hfree : ∀ index, f.interface = some index → s.findFace? index f.address = none) :
      Deals r (deals ++ [.added (s.faces.insert f).1 f.interface f.address])
        { s with faces := (s.faces.insert f).2 }
  | removed {r s : Relay} {deals : List Deal} (h : Deals r deals s) (key : FaceKey) :
      Deals r (deals ++ [.removed key]) (s.removeFace key).2
  | opened {r s : Relay} {deals : List Deal} (h : Deals r deals s) (address : FaceAddress) (mtu : Nat)
      (flags : FaceFlags) :
      Deals r deals { s with interfaces := s.interfaces ++ [.fresh address mtu flags] }

namespace Deals

variable {r s t : Relay} {deals more : List Deal}

theorem trans (h : Deals r deals s) (h' : Deals s more t) : Deals r (deals ++ more) t := by
  induction h' with
  | refl => rwa [List.append_nil]
  | quiet _ hqueues hsends ih => exact ih.quiet hqueues hsends
  | offered _ key suite bytes ih =>
    rw [← List.append_assoc]
    exact ih.offered key suite bytes
  | clearToSend _ index ih => exact ih.clearToSend index
  | added _ hflight hqueue hhome hfree ih =>
    rw [← List.append_assoc]
    exact ih.added hflight hqueue hhome hfree
  | removed _ key ih =>
    rw [← List.append_assoc]
    exact ih.removed key
  | opened _ address mtu flags ih => exact ih.opened address mtu flags

/-! ### Runs -/

theorem of_offers (h : Offers r s) : ∃ deals, Deals r deals s := by
  induction h with
  | refl => exact ⟨[], .refl r⟩
  | quietly _ hlinks ih =>
    obtain ⟨deals, h⟩ := ih
    exact ⟨deals, h.quiet (queues_of_links hlinks) (sends_of_links hlinks)⟩
  | enqueue _ key suite bytes ih =>
    obtain ⟨deals, h⟩ := ih
    exact ⟨_, h.offered key suite bytes⟩

theorem of_links (h : s.links = r.links) : ∃ deals, Deals r deals s := of_offers (.quiet h)

/-- Every move is made of deals. -/
theorem of_move (hm : Move r s) : ∃ deals, Deals r deals s := by
  cases hm with
  | log => exact of_links (links_emit r rfl)
  | @interest _ key interest => exact of_offers (offers_handleInterest r key interest)
  | @content _ _ key packet => exact of_offers (offers_handleContent r key packet)
  | fragment | flagFace | hear => exact of_links (links_modifyFace r _ _ fun _ => rfl)
  | @publish _ m packet _ _ hs =>
    have hstored := links_store r packet { pinned := true }
    rw [hs] at hstored
    exact of_offers ((offers_servePending m packet).after hstored)
  | @refuse _ _ packet _ _ hs =>
    have hstored := links_store r packet { pinned := true }
    rw [hs] at hstored
    exact of_links hstored
  | @newFace _ index address interface flags hindex hnew =>
    refine ⟨_, (refl r).added rfl rfl (fun j hj => ?_) fun j hj => ?_⟩
    · cases hj
      exact ⟨_, hindex, rfl⟩
    · cases hj
      exact hnew
  | newApplicationFace =>
    have hadded := (refl r).added (f := .fresh none .application { pinned := true } 0 r.now) rfl rfl
      (fun _ hindex => by cases hindex) fun _ hindex => by cases hindex
    exact ⟨_, hadded.quiet rfl rfl⟩
  | removeFace _ _ key => exact ⟨_, (refl r).removed key⟩
  | newInterface _ address mtu flags => exact ⟨_, (refl r).opened address mtu flags⟩
  | pace => exact ⟨_, (refl r).quiet (queues_modifyInterface r _ fun _ => rfl) rfl⟩
  | ageContents => exact of_links (links_ageContents r)
  | ageInterests => exact of_offers (offers_ageInterests r)
  | clearToSend _ index => exact ⟨_, (refl r).clearToSend index⟩
  | armAgeing => exact ⟨_, (refl r).quiet (queues_armAgeing r) (sends_armAgeing r)⟩
  | stop => exact ⟨_, (refl r).quiet (queues_stop r) (sends_stop r)⟩
  | expire hexpired =>
    obtain ⟨timer, -, htaken⟩ := Option.map_eq_some_iff.1 hexpired
    cases htaken
    exact ⟨_, (refl r).quiet rfl rfl⟩
  | removeContent | setCacheLimit | newRoute | removeRoute | nextNonce | disarm | clock =>
    exact ⟨_, (refl r).quiet rfl rfl⟩

theorem of_moves (hm : Moves r s) : ∃ deals, Deals r deals s := by
  induction hm with
  | refl => exact ⟨[], .refl r⟩
  | tail _ hm ih =>
    obtain ⟨deals, h⟩ := ih
    obtain ⟨more, h'⟩ := of_move hm
    exact ⟨_, h.trans h'⟩

/-- Every run is made of deals. -/
theorem of_performAll (hr : Reachable r) (calls : List Call) :
    ∃ deals, Deals r deals (r.performAll calls) := by
  induction calls generalizing r with
  | nil => exact ⟨[], .refl r⟩
  | cons c calls ih =>
    obtain ⟨deals, h⟩ := of_moves (moves_perform hr.consistent hr c)
    obtain ⟨more, h'⟩ := ih (hr.perform c)
    exact ⟨_, h.trans h'⟩

/-! ### What deals keep -/

theorem balanced (hr : r.Balanced) (h : Deals r deals s) : s.Balanced := by
  induction h with
  | refl => exact hr
  | quiet _ hqueues _ ih => exact ih.of_queues hqueues
  | offered _ key suite bytes ih => exact ih.enqueue key suite bytes
  | clearToSend _ index ih => exact ih.clearToSend index
  | added _ hflight hqueue hhome _ ih => exact ih.insertFace hflight hqueue hhome
  | removed _ key ih => exact ih.removeFace key
  | opened _ address mtu flags ih => exact ih.insertInterface address mtu flags

/-- A packet that is taken on is queued and may go out. Otherwise all that happens is a record. -/
theorem offered_cases (hr : r.Balanced) (key : FaceKey) (suite : Suite) (bytes : Bytes) :
    (∃ m, (r.enqueue key suite bytes).1 = .ok true ∧ Step r (.queued key ⟨suite, bytes⟩) m ∧
        Placed r m ∧ Outgoing m (r.enqueue key suite bytes).2) ∨
      (r.enqueue key suite bytes).1 ≠ .ok true ∧ (r.enqueue key suite bytes).2.links = r.links := by
  rcases enqueue_cases hr key suite bytes with ⟨f, index, hf, hindex, hanswer, hgoes⟩ | hrejected
  · exact .inl ⟨_, hanswer, .queued hf hindex ⟨suite, bytes⟩, .modifyFace r key fun _ => rfl,
      (outgoing_release _ key).trans hgoes⟩
  · exact .inr hrejected

theorem placed_enqueue (hr : r.Balanced) (key : FaceKey) (suite : Suite) (bytes : Bytes) :
    Placed r (r.enqueue key suite bytes).2 := by
  rcases offered_cases hr key suite bytes with ⟨m, -, hstep, hplaced, hgoes⟩ | ⟨-, hquiet⟩
  · obtain ⟨trace, hsteps, hout⟩ := hgoes
    exact hplaced.trans (.of_outgoing (hr.accounted.step hstep) hsteps hout)
  · exact .of_queues (queues_of_links hquiet)

theorem placed_clearToSend (hr : r.Balanced) (index : Nat) : Placed r (r.clearToSend index) := by
  obtain ⟨trace, hsteps, hout⟩ := outgoing_clearToSend hr index
  exact .of_outgoing hr.accounted hsteps hout

theorem addressed (hr : r.Balanced) (ha : r.Addressed) (h : Deals r deals s) : s.Addressed := by
  induction h with
  | refl => exact ha
  | quiet _ hqueues _ ih => exact ih.of_placed (.of_queues hqueues)
  | offered h key suite bytes ih =>
    exact ih.of_placed (placed_enqueue (h.balanced hr) key suite bytes)
  | clearToSend h index ih => exact ih.of_placed (placed_clearToSend (h.balanced hr) index)
  | added h _ _ _ hfree ih => exact ih.insertFace (h.balanced hr).faces rfl hfree
  | removed _ key ih => exact ih.of_placed (.removeFace _ key)
  | opened _ _ _ _ ih => exact ih.of_placed (.of_faces rfl)

/-! ### What goes to the place of a face -/

section

variable {key : FaceKey} {index : Nat} {f : Face}

/-- A face takes on what is offered to it just if it says so. -/
theorem turn_enqueue (hr : r.Balanced) (ha : r.Addressed) (hf : r.face? key = some f)
    (hindex : f.interface = some index) (k : FaceKey) (suite : Suite) (bytes : Bytes) :
    ∃ given g, Turn key index r f given
      ((Deal.offered k ⟨suite, bytes⟩ (r.enqueue k suite bytes).1).accepted? key).toList
      (r.enqueue k suite bytes).2 g := by
  rcases offered_cases hr k suite bytes with ⟨m, hanswer, hstep, hplaced, hgoes⟩ | ⟨hanswer, hquiet⟩
  · rw [hanswer]
    obtain ⟨g, hqueued⟩ := Turn.of_step hr.accounted ha hf hindex hstep nofun
    obtain ⟨given, e, hgone⟩ := Turn.outgoing (hr.accounted.step hstep) (ha.of_placed hplaced)
      hqueued.there hqueued.home hgoes
    exact ⟨_, e, hqueued.idle hgone⟩
  · rw [Deal.accepted?_of_rejected hanswer]
    exact ⟨_, Turn.quiet hf hindex (queues_of_links hquiet) (sends_of_links hquiet)⟩

theorem accepted_concat (key : FaceKey) (deals : List Deal) (deal : Deal) :
    accepted key (deals ++ [deal]) = accepted key deals ++ (deal.accepted? key).toList := by
  rw [accepted, List.filterMap_append]
  cases hdeal : deal.accepted? key <;> simp [hdeal, accepted]

/-- As long as a face is there it keeps its turns. -/
theorem turn (hr : r.Balanced) (ha : r.Addressed) (hf : r.face? key = some f)
    (hindex : f.interface = some index) (h : Deals r deals s) (hkept : .removed key ∉ deals) :
    ∃ given g, Turn key index r f given (accepted key deals) s g := by
  induction h with
  | refl => exact ⟨_, Turn.quiet hf hindex rfl rfl⟩
  | quiet _ hqueues hsends ih =>
    obtain ⟨given, g, hturn⟩ := ih hkept
    obtain ⟨e, hquiet⟩ := Turn.quiet hturn.there hturn.home hqueues hsends
    exact ⟨_, e, hturn.idle hquiet⟩
  | offered h k suite bytes ih =>
    obtain ⟨given, g, hturn⟩ := ih fun hmem => hkept (List.mem_append_left _ hmem)
    obtain ⟨more, e, hone⟩ := turn_enqueue (h.balanced hr) (h.addressed hr ha) hturn.there hturn.home
      k suite bytes
    rw [accepted_concat]
    exact ⟨_, e, hturn.trans hone⟩
  | clearToSend h j ih =>
    obtain ⟨given, g, hturn⟩ := ih hkept
    have hb := h.balanced hr
    obtain ⟨more, e, hgone⟩ := Turn.outgoing hb.accounted (h.addressed hr ha) hturn.there hturn.home
      (outgoing_clearToSend hb j)
    exact ⟨_, e, hturn.idle hgone⟩
  | added h hflight hqueue hhome hfree ih =>
    obtain ⟨given, g, hturn⟩ := ih fun hmem => hkept (List.mem_append_left _ hmem)
    obtain ⟨e, hone⟩ := Turn.of_step (h.balanced hr).accounted (h.addressed hr ha) hturn.there
      hturn.home (.added hflight hqueue hhome) nofun
    rw [accepted_concat]
    exact ⟨_, e, hturn.trans hone⟩
  | @removed m deals h k ih =>
    rw [List.mem_append, not_or, List.mem_singleton] at hkept
    obtain ⟨given, g, hturn⟩ := ih hkept.1
    rw [accepted_concat]
    cases hk : m.face? k with
    | none =>
      rw [removeFace_of_none hk]
      obtain ⟨e, hquiet⟩ := Turn.quiet hturn.there hturn.home rfl rfl
      exact ⟨_, e, hturn.trans hquiet⟩
    | some gone =>
      obtain ⟨e, hone⟩ := Turn.of_step (h.balanced hr).accounted (h.addressed hr ha) hturn.there
        hturn.home (.removed hk) fun hsame => hkept.2 (by cases hsame; rfl)
      exact ⟨_, e, hturn.trans hone⟩
  | opened h address mtu flags ih =>
    obtain ⟨given, g, hturn⟩ := ih hkept
    obtain ⟨e, hone⟩ := Turn.of_step (h.balanced hr).accounted (h.addressed hr ha) hturn.there
      hturn.home (.opened _ address mtu flags) nofun
    exact ⟨_, e, hturn.idle hone⟩

/-- Where there is no face nothing goes. -/
theorem silent {address : FaceAddress} (hr : r.Balanced) (hv : r.Vacant index address)
    (h : Deals r deals s) (hnew : ∀ key, .added key (some index) address ∉ deals) :
    Went index address r [] s ∧ s.Vacant index address := by
  induction h with
  | refl => exact ⟨.of_sends rfl, hv⟩
  | quiet _ hqueues hsends ih =>
    obtain ⟨hwent, hvacant⟩ := ih hnew
    exact ⟨hwent.trans (.of_sends hsends), hvacant.of_placed (.of_queues hqueues)⟩
  | offered h key suite bytes ih =>
    obtain ⟨hwent, hvacant⟩ := ih fun k hmem => hnew k (List.mem_append_left _ hmem)
    have hb := h.balanced hr
    refine ⟨hwent.trans ?_, hvacant.of_placed (placed_enqueue hb key suite bytes)⟩
    rcases offered_cases hb key suite bytes with ⟨m, -, hstep, hplaced, hgoes⟩ | ⟨-, hquiet⟩
    · exact (hvacant.went_of_step hb.accounted hstep).trans
        ((hvacant.of_placed hplaced).went_of_outgoing (hb.accounted.step hstep) hgoes)
    · exact .of_sends (sends_of_links hquiet)
  | clearToSend h j ih =>
    obtain ⟨hwent, hvacant⟩ := ih hnew
    have hb := h.balanced hr
    exact ⟨hwent.trans (hvacant.went_of_outgoing hb.accounted (outgoing_clearToSend hb j)),
      hvacant.of_placed (placed_clearToSend hb j)⟩
  | @added m deals h f hflight hqueue hhome hfree ih =>
    obtain ⟨hwent, hvacant⟩ := ih fun k hmem => hnew k (List.mem_append_left _ hmem)
    refine ⟨hwent.trans (.of_sends rfl), fun k g hg hindex haddress => ?_⟩
    rcases Slots.get?_of_get?_insert hg with rfl | hold
    · refine hnew (m.faces.insert g).1 (List.mem_append_right _ ?_)
      rw [hindex, haddress]
      exact List.mem_cons_self
    · exact hvacant k g hold hindex haddress
  | @removed m deals h key ih =>
    obtain ⟨hwent, hvacant⟩ := ih fun k hmem => hnew k (List.mem_append_left _ hmem)
    refine ⟨hwent.trans ?_, hvacant.of_placed (.removeFace _ key)⟩
    cases hkey : m.face? key with
    | none =>
      rw [removeFace_of_none hkey]
      exact .of_sends rfl
    | some gone => exact hvacant.went_of_step (h.balanced hr).accounted (.removed hkey)
  | opened h address mtu flags ih =>
    obtain ⟨hwent, hvacant⟩ := ih hnew
    exact ⟨hwent.trans (.of_sends rfl), hvacant.of_placed (.of_faces rfl)⟩

/-- A new face has nothing in any ring. -/
theorem own_of_new (hr : r.Lines) (f : Face) (index : Nat) :
    ({ r with faces := (r.faces.insert f).2 } : Relay).own (r.faces.insert f).1 index = [] :=
  own_of_unitsOf (hr.unitsOf_of_none (Slots.get?_insert_fresh hr.faces f) index)

end

end Deals

/-- In every run, and whatever else happens meanwhile: what is transmitted to the place of a face, as
    long as the face is there, followed by what it has in the ring and still has to cut, is in order
    among the units that it had and those of the packets that it took on since. A new face has none,
    so all that ever goes to it is, in order and each at most once, units of the packets it took on.
    To a place where there is no face nothing goes. -/
theorem transmitted_in_turn {r : Relay} (hr : Reachable r) :
    (∀ calls, ∃ deals, Deals r deals (r.performAll calls)) ∧
    ∀ before u, Deals r before u →
      (∀ key f index deals s, u.face? key = some f → f.interface = some index → Deals u deals s →
        .removed key ∉ deals → ∃ g, s.face? key = some g ∧
          (u.transmitted s index f.address ++
            (s.own key index ++ g.fragmenter.unitsInTurn g.queue)).Sublist
              (u.own key index ++ f.fragmenter.unitsInTurn (f.queue ++ accepted key deals))) ∧
      (∀ f index deals s, f.inFlight = none → f.queue = [] → f.interface = some index →
        (∃ i, u.interfaces[index]? = some i ∧
          f.fragmenter.mtu = (Fragmenter.ofMtu i.mtu).mtu) →
        u.findFace? index f.address = none →
        Deals { u with faces := (u.faces.insert f).2 } deals s →
        .removed (u.faces.insert f).1 ∉ deals →
        (({ u with faces := (u.faces.insert f).2 } : Relay).transmitted s index f.address).Sublist
          (f.fragmenter.unitsInTurn (accepted (u.faces.insert f).1 deals))) ∧
      (∀ index address deals s, u.findFace? index address = none → Deals u deals s →
        (∀ key, .added key (some index) address ∉ deals) → u.transmitted s index address = []) := by
  refine ⟨Deals.of_performAll hr, fun before u hu => ?_⟩
  have hb := hu.balanced hr.balanced
  have ha := hu.addressed hr.balanced hr.visited.addressed
  refine ⟨?_, ?_, ?_⟩
  · intro key f index deals s hf hindex h hkept
    obtain ⟨given, g, hturn⟩ := h.turn hb ha hf hindex hkept
    rw [hturn.went.transmitted]
    exact ⟨g, hturn.there, hturn.units⟩
  · intro f index deals s hflight hqueue hindex hhome hfree h hkept
    have hadded := hu.added hflight hqueue (fun j hj => by cases hindex.symm.trans hj; exact hhome)
      fun j hj => by cases hindex.symm.trans hj; exact hfree
    have hself : ({ u with faces := (u.faces.insert f).2 } : Relay).face? (u.faces.insert f).1 =
        some f := Slots.get?_insert_self hb.faces f
    obtain ⟨given, g, hturn⟩ := h.turn (hadded.balanced hr.balanced)
      (hadded.addressed hr.balanced hr.visited.addressed) hself hindex hkept
    have hunits := hturn.units
    rw [Deals.own_of_new hb.toLines f index, hqueue] at hunits
    rw [hturn.went.transmitted]
    exact (List.sublist_append_left _ _).trans hunits
  · intro index address deals s hfree h hnew
    exact (h.silent hb (.of_findFace? hfree) hnew).1.transmitted

/-- A relay with one face, at a paced interface that carries eight bytes of a packet at once. -/
def slow : Relay :=
  (Relay.fresh (Host.fresh ⟨0⟩ (fun _ => none) fun _ => true)).performAll
    [.addInterface (.path "own") 20 {}, .setPacing 0 (some 1000), .addFace 0 (.path "next") {}]

/-- The relay after it was offered a packet in three fragments and a short one, and was twice clear to
    send. -/
def slowly : Relay :=
  (((slow.enqueue ⟨0, 0⟩ .ndn (List.replicate 21 0)).2.enqueue ⟨0, 0⟩ .ndn [1]).2.clearToSend
    0).clearToSend 0

/-- Two fragments are gone, the third is in the ring, and the short packet waits: all of them in
    turn. -/
theorem slow_in_turn : ∃ deals g, Deals slow deals slowly ∧
    (accepted ⟨0, 0⟩ deals).map (·.bytes.length) = [21, 1] ∧
    (slow.transmitted slowly 0 (.path "next")).length = 2 ∧ (slowly.own ⟨0, 0⟩ 0).length = 1 ∧
    slowly.face? ⟨0, 0⟩ = some g ∧ g.queue.length = 1 ∧
    (slow.transmitted slowly 0 (.path "next") ++
      (slowly.own ⟨0, 0⟩ 0 ++ g.fragmenter.unitsInTurn g.queue)).Sublist
        ((Fragmenter.ofMtu 20).unitsInTurn (accepted ⟨0, 0⟩ deals)) := by
  have hslow : Reachable slow := (Reachable.fresh ⟨0⟩ (fun _ => none) fun _ => true).performAll _
  have hdeals := ((((Deals.refl slow).offered ⟨0, 0⟩ .ndn (List.replicate 21 0)).offered ⟨0, 0⟩ .ndn
    [1]).clearToSend 0).clearToSend 0
  obtain ⟨g, hg, hunits⟩ := ((transmitted_in_turn hslow).2 [] slow (.refl slow)).1 ⟨0, 0⟩
    (.fresh (some 0) (.path "next") {} 20 ⟨0⟩) 0 _ slowly rfl rfl hdeals (by simp)
  have hwaits : (slowly.face? ⟨0, 0⟩).map (·.queue.length) = some 1 := by decide +kernel
  rw [hg] at hwaits
  refine ⟨_, g, hdeals, by decide +kernel, by decide +kernel, by decide +kernel, hg,
    Option.some.inj hwaits, hunits⟩

end Relay

end NameRelay
