-- SUMMARY: What a face gives away is units of the packets it took on, in their order.
import NameRelay.Proofs.Relay.Acceptance

/-!
# Turns

A face cuts its packets one after the other, and the number of a fragment depends on the packets that
were cut before. So the units of a packet are settled by its turn. What the face gives away, what it has
in the ring and what is still to be cut are, in this order, units of the packets it took on, in
theirs: some may be missing, but none comes twice, and none overtakes another. This is a matter of
single steps, and adds up along a run.
-/

namespace NameRelay

namespace Fragmenter

/-- The units of a packet that is cut now; none if it cannot be cut. -/
def unitsOf (f : Fragmenter) (p : QueuedPacket) : List Bytes :=
  match (f.fragment p.suite p.bytes).1 with
  | .ok fragments => fragments.getD [p.bytes]
  | .error _ => []

/-- The fragmenter behind a packet. -/
def behind (f : Fragmenter) (p : QueuedPacket) : Fragmenter := (f.fragment p.suite p.bytes).2

/-- The units of packets that are cut one after the other. -/
def unitsInTurn (f : Fragmenter) : List QueuedPacket → List Bytes
  | [] => []
  | p :: rest => f.unitsOf p ++ (f.behind p).unitsInTurn rest

/-- The fragmenter behind packets. -/
def behindAll (f : Fragmenter) (packets : List QueuedPacket) : Fragmenter := packets.foldl behind f

theorem behindAll_append (f : Fragmenter) (packets more : List QueuedPacket) :
    f.behindAll (packets ++ more) = (f.behindAll packets).behindAll more := List.foldl_append

theorem unitsInTurn_append (f : Fragmenter) (packets more : List QueuedPacket) :
    f.unitsInTurn (packets ++ more) =
      f.unitsInTurn packets ++ (f.behindAll packets).unitsInTurn more := by
  induction packets generalizing f with
  | nil => rfl
  | cons p packets ih =>
    rw [List.cons_append, unitsInTurn, unitsInTurn, ih, List.append_assoc]
    rfl

end Fragmenter

theorem Face.settle_fragmenter (f : Face) : f.settle.fragmenter = f.fragmenter := by
  unfold settle
  split
  · split <;> rfl
  · rfl

namespace Relay

/-! ## One step -/

section

variable {r s : Relay} {key : FaceKey} {f : Face} {sign : Sign}

/-- What a face takes off its queue it cuts, and what it puts into the ring of that is units of it in
    order; some may be missing. -/
theorem cut_of_step (hr : r.Accounted) (h : Step r sign s) (hf : r.face? key = some f)
    (hkept : sign ≠ .removed key) : ∃ g, s.face? key = some g ∧ g.interface = f.interface ∧
      g.address = f.address ∧
      g.fragmenter = f.fragmenter.behindAll (sign.taken? key).toList ∧
      ((sign.train? key).toList.flatMap Train.loaded).Sublist
        (f.fragmenter.unitsInTurn (sign.taken? key).toList) := by
  by_cases hsign : sign.face? = some key
  · cases h with
    | added | removed | opened => cases hsign
    | @queued k e index he hindex p =>
      cases hsign
      cases he.symm.trans hf
      exact ⟨_, (face?_modifyFace_self r key _).trans (congrArg _ hf), rfl, rfl, rfl, .slnil⟩
    | @uncut k e index p rest err fragmenter he hindex hidle hqueue hcut =>
      cases hsign
      cases he.symm.trans hf
      rw [Sign.taken?, if_pos rfl]
      refine ⟨_, (face?_modifyFace_self r key _).trans (congrArg _ hf), rfl, rfl, ?_, List.nil_sublist _⟩
      exact (congrArg Prod.snd hcut).symm
    | @released k e index i p rest fragments fragmenter he hindex hi hidle hqueue hcut =>
      cases hsign
      cases he.symm.trans hf
      rw [Sign.taken?, Sign.train?, if_pos rfl, if_pos rfl]
      refine ⟨_, (face?_released hf key).trans (if_pos rfl), rfl, rfl, (congrArg Prod.snd hcut).symm, ?_⟩
      have hunits : f.fragmenter.unitsInTurn [p] = fragments.getD [p.bytes] := by
        rw [Fragmenter.unitsInTurn, Fragmenter.unitsOf, hcut]
        exact List.append_nil _
      rw [Option.toList_some, Option.toList_some, List.flatMap_singleton, hunits]
      exact List.take_sublist _ _
    | @sent k e j i unit queue he hi hpop hunit =>
      cases hunit.symm.trans hsign
      cases he.symm.trans hf
      obtain ⟨hinterface, haddress, -⟩ := Face.line_eq_iff.1 f.line_settle
      exact ⟨_, face?_sent hf j i queue unit, hinterface, haddress, f.settle_fragmenter, .slnil⟩
  · obtain ⟨-, htrain, htaken, -⟩ := Sign.none_of_foreign hsign
    rw [htrain, htaken]
    exact ⟨f, face?_of_foreign hr h hf hsign hkept, rfl, rfl, rfl, .slnil⟩

end

/-! ## What goes to a place -/

/-- Between `r` and `s` this is what was transmitted at an interface to an address. -/
def Went (index : Nat) (address : FaceAddress) (r : Relay) (given : List Bytes) (s : Relay) : Prop :=
  ∃ effects, s.sends = r.sends ++ effects ∧ effects.filterMap (Effect.toward? index address) = given

namespace Went

variable {index : Nat} {address : FaceAddress} {r s t : Relay} {given more : List Bytes} {sign : Sign}

theorem of_sends (h : s.sends = r.sends) : Went index address r [] s :=
  ⟨[], h.trans (List.append_nil _).symm, rfl⟩

theorem of_step (h : Step r sign s) :
    Went index address r (sign.effect?.bind (Effect.toward? index address)).toList s := by
  refine ⟨sign.effect?.toList, sends_step h, ?_⟩
  cases sign.effect? with
  | none => rfl
  | some effect => exact List.filterMap_cons

theorem trans (h : Went index address r given s) (h' : Went index address s more t) :
    Went index address r (given ++ more) t := by
  obtain ⟨effects, hsends, rfl⟩ := h
  obtain ⟨effects', hsends', rfl⟩ := h'
  refine ⟨effects ++ effects', ?_, List.filterMap_append⟩
  rw [hsends', hsends, List.append_assoc]

theorem transmitted (h : Went index address r given s) : r.transmitted s index address = given := by
  obtain ⟨effects, hsends, rfl⟩ := h
  rw [Relay.transmitted, hsends, List.drop_left]

end Went

/-! ## Where there is no face -/

namespace Vacant

variable {index : Nat} {address : FaceAddress} {r s : Relay} {sign : Sign}

/-- Every unit that goes is of a face, and goes to its place. -/
theorem went_of_step (hv : r.Vacant index address) (hr : r.Accounted) (h : Step r sign s) :
    Went index address r [] s := by
  have hnone : sign.effect?.bind (Effect.toward? index address) = none := by
    cases h with
    | added | removed | opened | queued | uncut | released => rfl
    | @sent key g j i unit queue hg hi hpop hunit =>
      obtain ⟨-, hunits, -⟩ := sent_line hr.toLines (hr.counted key) hg hi hpop hunit
      obtain ⟨l, f, -, hf, hj, haddress⟩ := hr.owned j unit (hunits ▸ List.mem_cons_self)
      refine if_neg fun ⟨hindex, hto⟩ => ?_
      exact hv l f hf (hj.trans (congrArg some hindex)) (haddress.symm.trans hto)
  have hwent : Went index address r (sign.effect?.bind (Effect.toward? index address)).toList s :=
    .of_step h
  rwa [hnone] at hwent

theorem went_of_outgoing (hv : r.Vacant index address) (hr : r.Accounted) (h : Outgoing r s) :
    Went index address r [] s := by
  obtain ⟨trace, hsteps, hout⟩ := h
  induction hsteps with
  | refl => exact .of_sends rfl
  | quiet _ _ hsends ih => exact (ih hout).trans (.of_sends hsends)
  | @tail _ _ trace sign hsteps hstep ih =>
    have hbefore : ∀ sign ∈ trace, sign.isOutgoing = true := fun sign hmem =>
      hout sign (List.mem_append_left _ hmem)
    have hplaced : Placed r _ := .of_outgoing hr hsteps hbefore
    exact (ih hbefore).trans ((hv.of_placed hplaced).went_of_step (hr.steps hsteps) hstep)

end Vacant

/-! ## Adding up -/

/-- From `r` to `s` units went to the place of the face, and it took packets on. What it gave away, has
    in the ring and is still to cut are, in this order, units of what it had and took on. -/
structure Turn (key : FaceKey) (index : Nat) (r : Relay) (f : Face) (given : List Bytes)
    (accepted : List QueuedPacket) (s : Relay) (g : Face) : Prop where
  there : s.face? key = some g
  home : g.interface = some index
  address : g.address = f.address
  went : Went index f.address r given s
  fragmenter : g.fragmenter.behindAll g.queue = f.fragmenter.behindAll (f.queue ++ accepted)
  units : (given ++ (s.own key index ++ g.fragmenter.unitsInTurn g.queue)).Sublist
    (r.own key index ++ f.fragmenter.unitsInTurn (f.queue ++ accepted))

namespace Turn

variable {key : FaceKey} {index : Nat} {r s t : Relay} {f g e : Face} {given more : List Bytes}
  {accepted later : List QueuedPacket} {sign : Sign}

/-- Nothing that matters happens. -/
theorem quiet (hf : r.face? key = some f) (hindex : f.interface = some index)
    (hqueues : s.queues = r.queues) (hsends : s.sends = r.sends) :
    ∃ g, Turn key index r f [] [] s g := by
  obtain ⟨g, hg, hsame⟩ := face?_of_queues hqueues.symm hf
  have hqueue : g.queue = f.queue := (congrArg Face.queue hsame :)
  have hfragmenter : g.fragmenter = f.fragmenter := (congrArg Face.fragmenter hsame :)
  refine ⟨g, hg, (congrArg Face.interface hsame :).trans hindex, (congrArg Face.address hsame :),
    .of_sends hsends, ?_, ?_⟩
  · rw [hqueue, hfragmenter, List.append_nil]
  · rw [hqueue, hfragmenter, List.append_nil, own, units_of_queues hqueues, ← own]
    exact .refl _

theorem trans (h : Turn key index r f given accepted s g)
    (h' : Turn key index s g more later t e) :
    Turn key index r f (given ++ more) (accepted ++ later) t e where
  there := h'.there
  home := h'.home
  address := h'.address.trans h.address
  went := h.went.trans (h.address ▸ h'.went)
  fragmenter := by
    rw [h'.fragmenter, Fragmenter.behindAll_append, h.fragmenter, ← Fragmenter.behindAll_append,
      List.append_assoc]
  units := by
    have hbehind : g.fragmenter.unitsInTurn (g.queue ++ later) = g.fragmenter.unitsInTurn g.queue ++
        (f.fragmenter.behindAll (f.queue ++ accepted)).unitsInTurn later := by
      rw [Fragmenter.unitsInTurn_append, h.fragmenter]
    have hlater := h'.units.append_left given
    rw [hbehind] at hlater
    have hearlier := h.units.append_right
      ((f.fragmenter.behindAll (f.queue ++ accepted)).unitsInTurn later)
    rw [← List.append_assoc f.queue, Fragmenter.unitsInTurn_append]
    simp only [List.append_assoc] at hlater hearlier ⊢
    exact hlater.trans hearlier

/-- Whoever takes nothing on in the second turn has taken on what it took on in the first one. -/
theorem idle (h : Turn key index r f given accepted s g) (h' : Turn key index s g more [] t e) :
    Turn key index r f (given ++ more) accepted t e := by
  have hboth := h.trans h'
  rwa [List.append_nil accepted] at hboth

/-- Every step is a turn of each face that stays. -/
theorem of_step (hr : r.Accounted) (ha : r.Addressed) (hf : r.face? key = some f)
    (hindex : f.interface = some index) (h : Step r sign s) (hkept : sign ≠ .removed key) :
    ∃ g, Turn key index r f (sign.sent? key).toList (sign.queued? key).toList s g := by
  obtain ⟨g, hg, hinterface, haddress, hfragmenter, hloaded⟩ := cut_of_step hr h hf hkept
  have hflow := Flow.single hr ⟨f, hf, hindex⟩ h hkept
  have hone {α : Type} (look : Sign → Option α) : [sign].filterMap look = (look sign).toList := by
    cases hlook : look sign <;> simp [hlook]
  have hring := hflow.ring
  have hqueue := hflow.queue
  rw [hone, hone] at hring hqueue
  rw [queueOf, queueOf, hf, hg, Option.map_some, Option.map_some, Option.getD_some,
    Option.getD_some] at hqueue
  refine ⟨g, hg, hinterface.trans hindex, haddress, ?_, ?_, ?_⟩
  · rw [← toward_of_step ha hf hindex hr (.of_faces rfl) h]
    exact .of_step h
  · rw [hfragmenter, ← Fragmenter.behindAll_append, hqueue]
  · rw [← List.append_assoc, hring, ← hqueue, Fragmenter.unitsInTurn_append, ← hfragmenter,
      List.append_assoc]
    exact (hloaded.append_right _).append_left _

/-- While packets go out the face takes none on. -/
theorem outgoing (hr : r.Accounted) (ha : r.Addressed) (hf : r.face? key = some f)
    (hindex : f.interface = some index) (h : Outgoing r s) :
    ∃ given g, Turn key index r f given [] s g := by
  obtain ⟨trace, hsteps, hout⟩ := h
  induction hsteps with
  | refl => exact ⟨_, quiet hf hindex rfl rfl⟩
  | quiet _ hqueues hsends ih =>
    obtain ⟨given, g, hturn⟩ := ih hout
    obtain ⟨e, hquiet⟩ := quiet hturn.there hturn.home hqueues hsends
    exact ⟨_, e, hturn.idle hquiet⟩
  | @tail _ _ trace sign hsteps hstep ih =>
    have hbefore : ∀ sign ∈ trace, sign.isOutgoing = true := fun sign hmem =>
      hout sign (List.mem_append_left _ hmem)
    have hlast := hout sign (List.mem_append_right _ List.mem_cons_self)
    obtain ⟨given, g, hturn⟩ := ih hbefore
    obtain ⟨e, hone⟩ := of_step (hr.steps hsteps) (ha.of_placed (.of_outgoing hr hsteps hbefore))
      hturn.there hturn.home hstep (by rintro rfl; cases hlast)
    rw [Sign.queued?_of_outgoing hlast key] at hone
    exact ⟨_, e, hturn.idle hone⟩

end Turn

end Relay

end NameRelay
