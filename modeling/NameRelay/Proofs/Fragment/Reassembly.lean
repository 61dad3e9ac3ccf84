-- SUMMARY: What a fragmenter cuts is put together again by an idle reassembler.
import Mathlib.Data.List.TakeWhile
import NameRelay.Fragment.Fragmenter
import NameRelay.Fragment.Reassembler
import NameRelay.Proofs.Fragment.History
import NameRelay.Proofs.Fragment.RoundTrip

/-!
# Cutting and putting together

A fragmenter cuts a packet into pieces that are the packet again when they are put together, and
numbers their fragments one after the other, from the greatest number on to zero. A reassembler that
is idle collects them piece by piece, and hands the packet over with the last.
-/

namespace NameRelay

/-! ## Pieces -/

namespace Bytes

theorem flatten_pieces (room : Nat) (bytes : Bytes) : (pieces room bytes).flatten = bytes := by
  fun_induction pieces room bytes with
  | case1 => rfl
  | case2 b rest ih => rw [List.flatten_cons, ih, List.cons_append, List.take_append_drop]

theorem length_le_of_mem_pieces {room : Nat} {bytes piece : Bytes} (h : piece ∈ pieces room bytes) :
    piece.length ≤ room + 1 := by
  fun_induction pieces room bytes with
  | case1 => cases h
  | case2 b rest ih =>
    rcases List.mem_cons.1 h with rfl | hrest
    · exact Nat.succ_le_succ (List.length_take_le room rest)
    · exact ih hrest

/-- Bytes that find no room in one piece are cut into several. -/
theorem two_le_length_pieces {room : Nat} {bytes : Bytes} (h : room + 1 < bytes.length) :
    2 ≤ (pieces room bytes).length := by
  match bytes, h with
  | b :: rest, h =>
    have hmore : rest.drop room ≠ [] := by
      rw [Ne, List.drop_eq_nil_iff]
      simp only [List.length_cons] at h
      omega
    obtain ⟨c, more, hc⟩ := List.exists_cons_of_ne_nil hmore
    rw [pieces, hc, pieces, List.length_cons, List.length_cons]
    omega

end Bytes

/-! ## Numbers -/

namespace Fragmenter

theorem toNat_seqnoAfter (seqno : UInt16) (n : Nat) :
    (seqnoAfter seqno n).toNat = (seqno.toNat + n) % FragmentHeader.seqnoModulus := by
  have hlt : (seqno.toNat + n) % FragmentHeader.seqnoModulus < FragmentHeader.seqnoModulus :=
    Nat.mod_lt _ (by decide)
  rw [seqnoAfter, UInt16.toNat_ofNat', Nat.mod_eq_of_lt (Nat.lt_trans hlt (by decide))]

theorem seqnoAfter_lt (seqno : UInt16) (n : Nat) :
    (seqnoAfter seqno n).toNat < FragmentHeader.seqnoModulus := by
  rw [toNat_seqnoAfter]
  exact Nat.mod_lt _ (by decide)

theorem following_seqnoAfter (seqno : UInt16) (n : Nat) :
    Reassembler.following (seqnoAfter seqno n) = seqnoAfter seqno (n + 1) := by
  rw [Reassembler.following, toNat_seqnoAfter, seqnoAfter, Nat.mod_add_mod, Nat.add_assoc]

/-- The header of one of so many fragments, numbered on from `seqno`. -/
def headerAt (seqno : UInt16) (count i : Nat) : FragmentHeader :=
  ⟨.ofEnds (i == 0) (i + 1 == count), seqnoAfter seqno i⟩

theorem position_headerAt_zero (seqno : UInt16) {count : Nat} (hmany : 2 ≤ count) :
    (headerAt seqno count 0).position = .first := by
  rw [headerAt, beq_false_of_ne (show 0 + 1 ≠ count by omega)]
  rfl

theorem position_headerAt_succ (seqno : UInt16) (count i : Nat) :
    (headerAt seqno count (i + 1)).position = if i + 1 + 1 = count then .last else .middle := by
  rw [headerAt]
  split
  · rename_i hlast
    rw [beq_iff_eq.2 hlast]
    rfl
  · rename_i hmore
    rw [beq_false_of_ne hmore]
    rfl

/-- The fragments of pieces, numbered on from `seqno`. -/
def fragments (suite : Suite) (seqno : UInt16) (pieces : List Bytes) : List Bytes :=
  pieces.mapIdx fun i piece => suite.fragmentBytes (headerAt seqno pieces.length i) piece

@[simp] theorem length_fragments (suite : Suite) (seqno : UInt16) (pieces : List Bytes) :
    (fragments suite seqno pieces).length = pieces.length := List.length_mapIdx

theorem take_fragments_succ (suite : Suite) (seqno : UInt16) {pieces : List Bytes} {k : Nat}
    (hk : k < pieces.length) : (fragments suite seqno pieces).take (k + 1) =
      (fragments suite seqno pieces).take k ++
        [suite.fragmentBytes (headerAt seqno pieces.length k) pieces[k]] := by
  have hin : k < (fragments suite seqno pieces).length := by rwa [length_fragments]
  rw [List.take_succ_eq_append_getElem hin]
  simp only [fragments, List.getElem_mapIdx]

theorem mapM_map_ok {ε α : Type} (as : List α) :
    (as.map Except.ok : List (Except ε α)).mapM id = .ok as := by
  rw [List.mapM_map]
  exact (List.mapM_pure (f := id)).trans (congrArg Except.ok (List.map_id as))

theorem takeWhile_map_ok {ε α : Type} (as : List α) :
    (as.map Except.ok : List (Except ε α)).takeWhile Except.isOk = as.map Except.ok := by
  rw [List.takeWhile_eq_self_iff]
  intro x hx
  obtain ⟨a, -, rfl⟩ := List.mem_map.1 hx
  rfl

/-- Every fragment of pieces that are short enough is written. -/
theorem zipWith_encodeFragment {suite : Suite} {overhead : Nat}
    (hsuite : suite.fragmentOverhead? = some overhead) (seqno : UInt16) {pieces : List Bytes}
    (hpieces : ∀ piece ∈ pieces, piece.length + overhead < 0x10000) :
    (headers seqno pieces.length).zipWith suite.encodeFragment pieces =
      (fragments suite seqno pieces).map Except.ok := by
  refine List.ext_getElem (by simp [headers, fragments]) fun i _ hi => ?_
  have hin : i < pieces.length := by simpa [fragments] using hi
  have hpiece := hpieces pieces[i] (List.getElem_mem hin)
  simp only [headers, fragments, List.getElem_zipWith, List.getElem_map, List.getElem_range,
    List.getElem_mapIdx]
  exact Suite.encodeFragment_eq hsuite _ hpiece

/-- A packet that is too long for its link is cut, if the link has room for more than the
    overhead. -/
theorem fragment_eq {suite : Suite} {overhead mtu : Nat} {bytes : Bytes}
    (hsuite : suite.fragmentOverhead? = some overhead) (hroom : overhead < mtu)
    (hmtu : mtu < 0x10000) (hlong : mtu < bytes.length) (next : UInt16) :
    fragment ⟨some mtu, next⟩ suite bytes =
      (.ok (some (fragments suite next (Bytes.pieces (mtu - overhead - 1) bytes))),
        ⟨some mtu, seqnoAfter next (Bytes.pieces (mtu - overhead - 1) bytes).length⟩) := by
  have hpieces : ∀ piece ∈ Bytes.pieces (mtu - overhead - 1) bytes,
      piece.length + overhead < 0x10000 := by
    intro piece hpiece
    have hlength := Bytes.length_le_of_mem_pieces hpiece
    omega
  have hwritten := zipWith_encodeFragment hsuite next hpieces
  rw [fragment, hsuite]
  dsimp only
  rw [if_neg (Nat.not_le_of_lt hlong), if_neg (Nat.not_le_of_lt hroom), hwritten]
  rw [takeWhile_map_ok, mapM_map_ok, List.length_map, length_fragments,
    Nat.min_eq_right (Nat.le_succ _)]
  rfl

end Fragmenter

/-! ## Putting together -/

namespace Reassembler

open Fragmenter

/-- What is collected when so many pieces of a packet have come. -/
def collected (suite : Suite) (seqno : UInt16) (pieces : List Bytes) : Nat → Reassembler
  | 0 => idle
  | k + 1 => ⟨some ⟨suite, seqnoAfter seqno (k + 1), (pieces.take (k + 1)).flatten⟩⟩

/-- What comes of the next fragment when so many have come: the last one completes the packet. -/
def stepAt (suite : Suite) (seqno : UInt16) (pieces : List Bytes) (k : Nat) : Step :=
  if k + 1 = pieces.length then { next := idle, whole := some pieces.flatten }
  else { next := collected suite seqno pieces (k + 1) }

/-- Fragments that come one after the other are put together. -/
theorem accept_fragment {suite : Suite} {seqno : UInt16} {pieces : List Bytes}
    (hmany : 2 ≤ pieces.length) (hsize : pieces.flatten.length ≤ maxPacketSize) {k : Nat}
    (hk : k < pieces.length) {packet : Packet} {span : Span} (hsuite : packet.suite = suite)
    (hbody : packet.body = .fragment (headerAt seqno pieces.length k) span)
    (hpiece : span.of packet.bytes = pieces[k]) :
    (collected suite seqno pieces k).accept packet = stepAt suite seqno pieces k := by
  have hflatten : (pieces.take (k + 1)).flatten = (pieces.take k).flatten ++ pieces[k] := by
    rw [List.take_succ_eq_append_getElem hk, List.flatten_append, List.flatten_singleton]
  have hfragment := Packet.asFragment?_of_body hsuite hbody hpiece
  rw [stepAt]
  -- The first fragment opens the packet, and each one behind it is the one that is waited for.
  cases k with
  | zero =>
    have hopened : PartialPacket.opened ⟨suite, headerAt seqno pieces.length 0, pieces[0]⟩ =
        ⟨suite, seqnoAfter seqno 1, (pieces.take 1).flatten⟩ := by
      rw [PartialPacket.opened, headerAt, following_seqnoAfter, hflatten]
      rfl
    rw [accept_of_first _ hfragment (position_headerAt_zero seqno hmany), hopened,
      if_neg (Nat.ne_of_lt hmany)]
    rfl
  | succ k =>
    have htakes : PartialPacket.Takes
        ⟨suite, seqnoAfter seqno (k + 1), (pieces.take (k + 1)).flatten⟩
        ⟨suite, headerAt seqno pieces.length (k + 1), pieces[k + 1]⟩ := by
      refine ⟨rfl, rfl, ?_⟩
      have hwhole : pieces.flatten =
          (pieces.take (k + 1 + 1)).flatten ++ (pieces.drop (k + 1 + 1)).flatten := by
        rw [← List.flatten_append, List.take_append_drop]
      rw [hwhole, hflatten, List.length_append, List.length_append] at hsize
      exact Nat.le_of_add_right_le hsize
    have hposition := position_headerAt_succ seqno pieces.length k
    rw [collected]
    by_cases hlast : k + 1 + 1 = pieces.length
    · rw [if_pos hlast] at hposition
      rw [accept_of_last hfragment hposition htakes, if_pos hlast, ← hflatten,
        List.take_of_length_le (Nat.le_of_eq hlast.symm)]
    · rw [if_neg hlast] at hposition
      rw [accept_of_middle hfragment hposition htakes, if_neg hlast, collected, hflatten,
        PartialPacket.extended, headerAt, following_seqnoAfter]

end Reassembler

end NameRelay
