-- SUMMARY: A packet that comes in fragments is handled like the packet that comes whole.
import NameRelay.Proofs.Fragment.Reassembly
import NameRelay.Proofs.Relay.Indifference

/-!
# Fragments and whole packets

A relay that receives the fragments of a buffer one after the other ends as if it had received the
buffer, records apart. Until the last fragment nothing changes but what the face of the sender has
collected: who sends again at the same time is the same face and was heard of already. With the last
fragment the face is idle again, and the buffer is handled as if it had come by itself.
-/

namespace NameRelay

namespace Relay

/-- The relay when buffers have come one after the other from one sender. -/
def receiveAll (r : Relay) (index : Nat) (source : FaceAddress) (buffers : List Bytes) : Relay :=
  buffers.foldl (fun r bytes => (r.receive index bytes source).2) r

/-- The relay with a face that has collected this much. -/
def holding (r : Relay) (key : FaceKey) (collected : Reassembler) : Relay :=
  r.modifyFace key fun f => { f with reassembler := collected }

theorem outline_holding (r : Relay) (key : FaceKey) (collected : Reassembler) :
    (r.holding key collected).outline = r.outline := by
  have hfaces : (r.holding key collected).faces.mapEntries Face.bare =
      r.faces.mapEntries Face.bare := Slots.mapEntries_modify fun _ _ => rfl
  exact (congrArg (fun faces => { r.standing with faces }) hfaces :)

theorem outline_of_unlogged {r s : Relay} (h : s.unlogged = r.unlogged) : s.outline = r.outline :=
  (congrArg outline h :)

theorem holding_holding (r : Relay) (key : FaceKey) (earlier later : Reassembler) :
    (r.holding key earlier).holding key later = r.holding key later := by
  rw [holding, holding, holding, modifyFace, modifyFace, Slots.modify_modify]
  rfl

theorem unlogged_holding (r : Relay) (key : FaceKey) (collected : Reassembler) :
    (r.holding key collected).unlogged = r.unlogged.holding key collected := rfl

/-- What a face has collected before does not count once it has collected something else. -/
theorem unlogged_holding_of_holding {r s : Relay} {key : FaceKey} {earlier : Reassembler}
    (h : r.unlogged = (s.holding key earlier).unlogged) (later : Reassembler) :
    (r.holding key later).unlogged = (s.holding key later).unlogged := by
  rw [unlogged_holding, h, ← unlogged_holding, holding_holding]

theorem face?_holding {r : Relay} {key : FaceKey} {face : Face} (hface : r.face? key = some face)
    (collected : Reassembler) :
    (r.holding key collected).face? key = some { face with reassembler := collected } := by
  have hget := Slots.get?_modify r.faces key (fun f => { f with reassembler := collected }) key
  rw [if_pos rfl] at hget
  exact hget.trans (congrArg _ hface)

/-- A face that has collected nothing still has nothing if it is made idle. -/
theorem holding_idle {r : Relay} {key : FaceKey}
    (hidle : ∀ face, r.face? key = some face → face.reassembler = .idle) :
    r.holding key .idle = r := by
  have hsame : ∀ face, r.faces.get? key = some face →
      { face with reassembler := .idle } = face := by
    intro face hface
    rw [← hidle face hface]
  rw [holding, modifyFace, Slots.modify_eq_self hsame]

/-! ## One fragment -/

section

variable {t : Relay} {key : FaceKey} {face : Face} {packet : Packet} {header : FragmentHeader}
  {span : Span}

theorem unlogged_announce (r : Relay) (key : FaceKey) (packet : Packet) :
    (r.announce key packet).unlogged = r.unlogged :=
  (unlogged_logAll _ [_]).trans (unlogged_logAll _ _)

theorem collect_eq {r : Relay} (hface : r.face? key = some face) (packet : Packet) :
    r.collect key packet = (.ok (face.reassembler.accept packet).whole,
      (r.holding key (face.reassembler.accept packet).next).logAll
        ((face.reassembler.accept packet).note.map (·.record)).toList) := by
  rw [collect, hface]
  rfl

variable (hface : t.face? key = some face) (hbody : packet.body = .fragment header span)
include hface hbody

/-- What is collected is all that changes with a fragment, until its packet is complete. -/
theorem dispatch_fragment : ∃ u : Relay,
    u.unlogged = (t.holding key (face.reassembler.accept packet).next).unlogged ∧
      dispatch takeFragment key t packet =
        match (face.reassembler.accept packet).whole with
        | none => u
        | some whole => (u.handleBuffer dropFragment key whole).2 := by
  have hannounced := unlogged_announce t key packet
  have hface' : (t.announce key packet).face? key = some face :=
    (congrArg (·.face? key) hannounced).trans hface
  refine ⟨((t.announce key packet).holding key (face.reassembler.accept packet).next).logAll
    ((face.reassembler.accept packet).note.map (·.record)).toList, ?_, ?_⟩
  · have hheld := congrArg (holding · key (face.reassembler.accept packet).next) hannounced
    exact (unlogged_logAll _ _).trans hheld
  · rw [dispatch, handlePacket, hbody]
    dsimp only
    rw [takeFragment, collect_eq hface']
    cases (face.reassembler.accept packet).whole <;> rfl

end

/-! ## One fragment after the other -/

/-- Pieces of a packet whose fragments can be read, and a face that has collected nothing yet. -/
structure Incoming (s : Relay) (key : FaceKey) (suite : Suite) (seqno : UInt16)
    (pieces : List Bytes) : Prop where
  idle : ∃ face, s.face? key = some face ∧ face.reassembler = .idle
  many : 2 ≤ pieces.length
  size : pieces.flatten.length ≤ maxPacketSize
  readable : ∀ k (hk : k < pieces.length),
    suite.IsFragment (Fragmenter.headerAt seqno pieces.length k) pieces[k]
      (suite.fragmentBytes (Fragmenter.headerAt seqno pieces.length k) pieces[k])

/-- The face is idle to begin with. -/
theorem Incoming.holding_idle {s : Relay} {key : FaceKey} {suite : Suite} {seqno : UInt16}
    {pieces : List Bytes} (h : Incoming s key suite seqno pieces) : s.holding key .idle = s := by
  obtain ⟨face, hface, hidle⟩ := h.idle
  refine Relay.holding_idle fun f hf => ?_
  cases hface.symm.trans hf
  exact hidle

section

variable {r s t : Relay} (hr : r.faces.WellFormed) {index : Nat} {source : FaceAddress}
  {key : FaceKey} (hsender : r.sender index source = (.ok key, s))

include hr hsender

/-- A buffer that holds one packet, from a sender who was heard of at the same time. -/
theorem unlogged_receive_single (hsame : t.outline = s.outline) {bytes : Bytes} {packet : Packet}
    (hread : Datagram.read bytes = ⟨[packet], none⟩) :
    (t.receive index bytes source).2.unlogged = (dispatch takeFragment key t packet).unlogged := by
  rw [receive_eq (sender_again hr hsender hsame), unlogged_handleBuffer, hread]
  rfl

variable {suite : Suite} {seqno : UInt16} {pieces : List Bytes}
  (hin : Incoming s key suite seqno pieces)

include hin

/-- The fragment that comes next is collected, and the packet is handled if it is complete. -/
theorem receive_next {k : Nat} (hk : k < pieces.length)
    (ht : t.unlogged = (s.holding key (.collected suite seqno pieces k)).unlogged) :
    ∃ u : Relay,
      u.unlogged = (s.holding key (Reassembler.stepAt suite seqno pieces k).next).unlogged ∧
      (t.receive index (suite.fragmentBytes (Fragmenter.headerAt seqno pieces.length k) pieces[k])
        source).2.unlogged =
          (match (Reassembler.stepAt suite seqno pieces k).whole with
          | none => u
          | some whole => (u.handleBuffer dropFragment key whole).2).unlogged := by
  obtain ⟨packet, span, hread, hsuite, hbody, hpiece⟩ := hin.readable k hk
  obtain ⟨face, hface, -⟩ := hin.idle
  have hsame : t.outline = s.outline := (outline_of_unlogged ht).trans (outline_holding s key _)
  have hface' : t.face? key =
      some { face with reassembler := .collected suite seqno pieces k } :=
    (congrArg (·.face? key) ht :).trans (face?_holding hface _)
  have haccept := Reassembler.accept_fragment hin.many hin.size hk hsuite hbody hpiece
  obtain ⟨u, hu, hdispatch⟩ := dispatch_fragment hface' hbody
  rw [haccept] at hu hdispatch
  refine ⟨u, hu.trans (unlogged_holding_of_holding ht _), ?_⟩
  rw [unlogged_receive_single hr hsender hsame hread, hdispatch]

/-- Before the last fragment has come, the face has collected the pieces so far and nothing else has
    changed. -/
theorem unlogged_receiveAll_take {k : Nat} (hk : k < pieces.length) :
    (s.receiveAll index source ((Fragmenter.fragments suite seqno pieces).take k)).unlogged =
      (s.holding key (.collected suite seqno pieces k)).unlogged := by
  induction k with
  | zero => exact congrArg unlogged hin.holding_idle.symm
  | succ k ih =>
    have hbefore : k < pieces.length := Nat.lt_of_succ_lt hk
    obtain ⟨u, hu, hreceived⟩ := receive_next hr hsender hin hbefore (ih hbefore)
    rw [Reassembler.stepAt, if_neg (Nat.ne_of_lt hk)] at hu hreceived
    rw [receiveAll, Fragmenter.take_fragments_succ suite seqno hbefore, List.foldl_append]
    exact hreceived.trans hu

/-- When all fragments have come, the packet has been handled as if it had come whole. -/
theorem unlogged_receiveAll :
    (s.receiveAll index source (Fragmenter.fragments suite seqno pieces)).unlogged =
      (s.handleBuffer dropFragment key pieces.flatten).2.unlogged := by
  obtain ⟨k, hk⟩ : ∃ k, k + 1 = pieces.length := ⟨pieces.length - 1, Nat.sub_add_cancel
    (Nat.le_of_succ_le hin.many)⟩
  have hlast : k < pieces.length := hk ▸ Nat.lt_succ_self k
  have hall : (Fragmenter.fragments suite seqno pieces).take (k + 1) =
      Fragmenter.fragments suite seqno pieces :=
    List.take_of_length_le (Nat.le_of_eq ((Fragmenter.length_fragments ..).trans hk.symm))
  obtain ⟨u, hu, hreceived⟩ := receive_next hr hsender hin hlast
    (unlogged_receiveAll_take hr hsender hin hlast)
  rw [Reassembler.stepAt, if_pos hk, hin.holding_idle] at hu
  rw [Reassembler.stepAt, if_pos hk] at hreceived
  rw [← hall, receiveAll, Fragmenter.take_fragments_succ suite seqno hlast, List.foldl_append]
  refine hreceived.trans ?_
  rw [unlogged_handleBuffer, unlogged_handleBuffer]
  exact unlogged_foldl_dispatch hu key _

end

/-! ## Who sends -/

/-- No packet of the sender has been begun and not ended. -/
def SenderIdle (r : Relay) (index : Nat) (source : FaceAddress) : Prop :=
  ∀ key face, r.findFace? index source = some key → r.face? key = some face →
    face.reassembler = .idle

section

variable {r s : Relay} {index : Nat} {source : FaceAddress} {key : FaceKey}

/-- Nothing happens if there is no such interface. -/
theorem eq_of_sender_error {e : RelayError} (h : r.sender index source = (.error e, s)) :
    s = r := by
  have hmet := faceFor_cases r index source
  unfold sender at h
  split at h
  · rename_i hface
    cases h
    rw [hface] at hmet
    cases hmet
    rfl
  · cases h

/-- The first buffer of a sender counts as heard of already. -/
theorem receiveAll_of_sender (hr : r.faces.WellFormed) (h : r.sender index source = (.ok key, s))
    {buffers : List Bytes} (hne : buffers ≠ []) :
    r.receiveAll index source buffers = s.receiveAll index source buffers := by
  obtain ⟨first, rest, rfl⟩ := List.exists_cons_of_ne_nil hne
  rw [receiveAll, receiveAll, List.foldl_cons, List.foldl_cons, receive_eq h,
    receive_eq (sender_again hr h rfl)]

/-- A face that is new has collected nothing. -/
theorem idle_sender (hr : r.faces.WellFormed) (hidle : r.SenderIdle index source)
    (h : r.sender index source = (.ok key, s)) :
    ∃ face, s.face? key = some face ∧ face.reassembler = .idle := by
  obtain ⟨t, hmet, rfl⟩ := ok_of_sender h
  have hfound : ∃ face, t.face? key = some face ∧ face.reassembler = .idle := by
    cases hmet with
    | known hkey =>
      obtain ⟨face, hget, -⟩ := Slots.get?_of_find? hkey
      exact ⟨face, hget, hidle _ face hkey hget⟩
    | new hnone => exact ⟨_, Slots.get?_insert_self hr _, rfl⟩
  obtain ⟨face, hget, hcollected⟩ := hfound
  have hheard := Slots.get?_modify t.faces key (fun f => { f with lastUsed := t.now }) key
  rw [if_pos rfl] at hheard
  exact ⟨_, hheard.trans (congrArg _ hget), hcollected⟩

end

/-- What to do with fragments does not matter for packets that are none. -/
theorem dispatch_of_message (f g : FragmentHandler) (key : FaceKey) (r : Relay) {packet : Packet}
    (h : packet.fragment? = none) : dispatch f key r packet = dispatch g key r packet := by
  have hsame : handlePacket f key (r.announce key packet) packet =
      handlePacket g key (r.announce key packet) packet := by
    unfold handlePacket
    split <;> rename_i hbody
    · rfl
    · rfl
    · rfl
    · rw [Packet.fragment?, hbody] at h
      cases h
  rw [dispatch, hsame, dispatch]

/-- Nor for a buffer that holds no fragments. -/
theorem unlogged_handleBuffer_of_plain {bytes : Bytes}
    (hplain : ∀ packet ∈ (Datagram.read bytes).packets, packet.fragment? = none)
    (f g : FragmentHandler) (r : Relay) (key : FaceKey) :
    (r.handleBuffer f key bytes).2.unlogged = (r.handleBuffer g key bytes).2.unlogged := by
  have hsame := List.foldl_ext (dispatch f key) (dispatch g key) r
    fun s packet hpacket => dispatch_of_message f g key s (hplain packet hpacket)
  rw [unlogged_handleBuffer, unlogged_handleBuffer, hsame]

/-! ## Fragments instead of a whole packet -/

/-- The fragments of a buffer come to the same as the buffer, if it holds no fragments itself and is
    no longer than packets may be: the relay ends in the same state and has transmitted, handed up and
    asked of its timers the same, in the same order. Of the relay it only matters that its faces can
    be told apart, as those of every reachable relay can. -/
theorem receive_fragments {r : Relay} (hr : r.faces.WellFormed) {index : Nat} {source : FaceAddress}
    (hidle : r.SenderIdle index source) {suite : Suite} {overhead mtu : Nat}
    (hsuite : suite.fragmentOverhead? = some overhead) (hroom : overhead < mtu) (next : UInt16)
    {bytes : Bytes} (hlong : mtu < bytes.length) (hsize : bytes.length ≤ maxPacketSize)
    (hplain : ∀ packet ∈ (Datagram.read bytes).packets, packet.fragment? = none) :
    ∃ fragments after,
      (⟨some mtu, next⟩ : Fragmenter).fragment suite bytes = (.ok (some fragments), after) ∧
      (r.receiveAll index source fragments).unlogged =
        (r.receive index bytes source).2.unlogged := by
  have hmtu : mtu < 0x10000 := Nat.lt_trans (Nat.lt_of_lt_of_le hlong hsize) (by decide)
  have hflatten := Bytes.flatten_pieces (mtu - overhead - 1) bytes
  have hmany : 2 ≤ (Bytes.pieces (mtu - overhead - 1) bytes).length :=
    Bytes.two_le_length_pieces (by omega)
  refine ⟨_, _, Fragmenter.fragment_eq hsuite hroom hmtu hlong next, ?_⟩
  generalize hpieces : Bytes.pieces (mtu - overhead - 1) bytes = pieces at hflatten hmany ⊢
  cases hsender : r.sender index source with
  | mk outcome s =>
    cases outcome with
    | error e =>
      obtain rfl := eq_of_sender_error hsender
      have hrefused (buffer : Bytes) : (s.receive index buffer source).2 = s := by
        rw [receive, hsender]
      rw [receiveAll, hrefused, List.foldl_fixed' hrefused]
    | ok key =>
      have hin : Incoming s key suite next pieces := by
        refine ⟨idle_sender hr hidle hsender, hmany, hflatten ▸ hsize, fun k hk => ?_⟩
        have hmem : pieces[k] ∈ Bytes.pieces (mtu - overhead - 1) bytes := by
          rw [hpieces]
          exact List.getElem_mem hk
        have hlength := Bytes.length_le_of_mem_pieces hmem
        exact Suite.isFragment_fragmentBytes hsuite _ (by omega) (Fragmenter.seqnoAfter_lt ..)
      have hne : Fragmenter.fragments suite next pieces ≠ [] := by
        rw [← List.length_pos_iff, Fragmenter.length_fragments]
        omega
      calc (r.receiveAll index source (Fragmenter.fragments suite next pieces)).unlogged
        _ = (s.receiveAll index source (Fragmenter.fragments suite next pieces)).unlogged := by
            rw [receiveAll_of_sender hr hsender hne]
        _ = (s.handleBuffer dropFragment key bytes).2.unlogged := by
            rw [unlogged_receiveAll hr hsender hin, hflatten]
        _ = (r.receive index bytes source).2.unlogged := by
            rw [receive_eq hsender, unlogged_handleBuffer_of_plain hplain]

/-- A relay that has heard of a reader. -/
def familiar : Relay := (listening.receive 0 ndnInterest (.path "reader")).2

theorem wellFormed_familiar : familiar.faces.WellFormed :=
  have hr : Reachable familiar :=
    ((Reachable.fresh _ _ _).perform _).perform (.receive 0 ndnInterest (.path "reader"))
  hr.consistent.faces

theorem senderIdle_familiar : familiar.SenderIdle 0 (.path "reader") := by
  have hfound : familiar.findFace? 0 (.path "reader") = some ⟨0, 0⟩ := by decide +kernel
  have hcollected : (familiar.face? ⟨0, 0⟩).map (·.reassembler) = some .idle := by decide +kernel
  intro key face hkey hface
  cases hfound.symm.trans hkey
  rw [hface] at hcollected
  exact Option.some_inj.1 hcollected

/-- A CCNx interest in five IOT fragments, with numbers that start again from zero. -/
theorem receive_fragments_iot :
    ∃ fragments after,
      (⟨some 20, 0x3fff⟩ : Fragmenter).fragment .iot ccnxInterest = (.ok (some fragments), after) ∧
      fragments.length = 5 ∧
      (familiar.receiveAll 0 (.path "reader") fragments).unlogged =
        (familiar.receive 0 ccnxInterest (.path "reader")).2.unlogged := by
  obtain ⟨fragments, after, hcut, hsame⟩ := @receive_fragments familiar wellFormed_familiar 0
    (.path "reader") senderIdle_familiar .iot 15 20 rfl (by decide) 0x3fff ccnxInterest (by decide)
      (by decide) (by decide +kernel)
  have hmany : (Fragmenter.fragment ⟨some 20, 0x3fff⟩ .iot ccnxInterest).1.toOption.join.map
      List.length = some 5 := by decide +kernel
  rw [hcut] at hmany
  exact ⟨fragments, after, hcut, Option.some_inj.1 hmany, hsame⟩

end Relay

end NameRelay
