-- SUMMARY: Splitting a packet gives a complete series that fits the link and is put together again.
import NameRelay.Codec
import NameRelay.Proofs.Fragment.History
import NameRelay.Proofs.Fragment.Reassembly

/-!
# Splitting for any link

The overhead of a suite covers the heads of its fragments on any link, so what a fragmenter cuts
always fits the link it is cut for. The fragments are a complete series: read again they have one
number after the other, and their pieces are the packet. A reassembler that is fed them in order
hands the packet over with the last, unless the packet is too long for it.
-/

namespace NameRelay

/-! ## One fragment -/

namespace Suite

variable {suite : Suite} {overhead : Nat} (hsuite : suite.fragmentOverhead? = some overhead)
  (header : FragmentHeader) {piece : Bytes} (hpiece : piece.length + overhead < 0x10000)
include hsuite hpiece

/-- The overhead is enough for the heads of a fragment. -/
theorem length_fragmentBytes_le :
    (suite.fragmentBytes header piece).length ≤ piece.length + overhead := by
  cases suite with
  | ccnb | cisco => cases hsuite
  | ccnx =>
    cases hsuite
    exact Nat.le_of_eq (Ccnx.length_fragmentBytes header piece)
  | iot =>
    cases hsuite
    exact Iot.length_fragmentBytes_le header hpiece
  | ndn =>
    cases hsuite
    exact Ndn.length_fragmentBytes_le header hpiece

/-- A fragment that was written is read, behind any switch, as the fragment that it is. -/
theorem decode_fragmentBytes (hseqno : header.seqno.toNat < FragmentHeader.seqnoModulus) :
    ∃ packet, suite.decodeBehindSwitch (suite.fragmentBytes header piece) =
        .ok (packet, (Switch.dropFrom (suite.fragmentBytes header piece)).length) ∧
      packet.asFragment? = some ⟨suite, header, piece⟩ := by
  cases suite with
  | ccnb | cisco => cases hsuite
  | ccnx =>
    cases hsuite
    obtain ⟨span, hdecode, hspan⟩ := Ccnx.decode_fragmentBytes header hpiece hseqno
    have hdrop : Switch.dropFrom (Ccnx.fragmentBytes header piece) = _ :=
      Switch.dropFrom_of_head? (by rintro ⟨⟩)
    simp only [decodeBehindSwitch, fragmentBytes, hdrop]
    exact ⟨_, hdecode, Packet.asFragment?_of_body rfl rfl hspan⟩
  | iot =>
    cases hsuite
    obtain ⟨span, hdecode, hspan⟩ := Iot.decode_fragmentBytes header hseqno hpiece
    simp only [decodeBehindSwitch, fragmentBytes, Iot.fragmentBytes, Iot.switch, Switch.dropFrom_header]
    exact ⟨_, hdecode, Packet.asFragment?_of_body rfl rfl hspan⟩
  | ndn =>
    cases hsuite
    obtain ⟨span, hdecode, hspan⟩ := Ndn.decode_fragmentBytes header hseqno hpiece
    have hdrop : Switch.dropFrom (Ndn.fragmentBytes header piece) = _ :=
      Switch.dropFrom_of_head? (by rintro ⟨⟩)
    simp only [decodeBehindSwitch, fragmentBytes, hdrop]
    exact ⟨_, hdecode, Packet.asFragment?_of_body rfl rfl hspan⟩

end Suite

/-! ## All fragments of a packet -/

namespace Fragmenter

/-- The fragments of pieces as they come, numbered on from `seqno`. -/
def series (suite : Suite) (seqno : UInt16) (pieces : List Bytes) : List Fragment :=
  pieces.mapIdx fun i piece => ⟨suite, headerAt seqno pieces.length i, piece⟩

variable (suite : Suite) (seqno : UInt16) (pieces : List Bytes)

@[simp] theorem length_series : (series suite seqno pieces).length = pieces.length :=
  List.length_mapIdx

theorem whole_series : Series.whole (series suite seqno pieces) = pieces.flatten := by
  have hpieces : (series suite seqno pieces).map (·.piece) = pieces :=
    List.ext_getElem (by simp) fun i _ _ => by simp [series]
  rw [Series.whole, hpieces]

theorem fragments_eq_map_series : fragments suite seqno pieces =
    (series suite seqno pieces).map fun a => suite.fragmentBytes a.header a.piece :=
  List.ext_getElem (by simp) fun i _ _ => by simp [fragments, series]

theorem numbers_series : (series suite seqno pieces).map (·.header.seqno.toNat) =
    (List.range pieces.length).map fun i => (seqno.toNat + i) % FragmentHeader.seqnoModulus := by
  refine List.ext_getElem (by simp) fun i _ _ => ?_
  simp [series, headerAt, toNat_seqnoAfter]

theorem inSequence_series : (series suite seqno pieces).IsChain Fragment.Precedes := by
  rw [List.isChain_iff_getElem]
  intro i _
  simp only [series, List.getElem_mapIdx]
  exact ⟨rfl, Series.following_eq_iff.1 (following_seqnoAfter seqno i)⟩

/-- The first fragment opens the packet, the last one closes it. -/
theorem positions_series (hmany : 2 ≤ pieces.length) :
    Series.positions (series suite seqno pieces) =
      .first :: (List.replicate (pieces.length - 2) .middle ++ [.last]) := by
  refine List.ext_getElem (by simp; omega) fun i hi _ => ?_
  simp only [Series.positions, series, List.getElem_map, List.getElem_mapIdx]
  cases i with
  | zero => exact position_headerAt_zero seqno hmany
  | succ i =>
    have hin : i + 1 < pieces.length := by simpa using hi
    rw [position_headerAt_succ, List.getElem_cons_succ]
    split
    · have hbehind : i = pieces.length - 2 := by omega
      rw [List.getElem_append_right (by simp; omega)]
      simp [hbehind]
    · rw [List.getElem_append_left (by simp; omega), List.getElem_replicate]

/-- Several pieces make a complete series. -/
theorem complete_series (hmany : 2 ≤ pieces.length) :
    Series.Complete (series suite seqno pieces) :=
  ⟨⟨_, positions_series suite seqno pieces hmany⟩, inSequence_series suite seqno pieces⟩

/-- A packet in fragments for a link: what was written, the packets that are read of it, and what
    they say as fragments. -/
structure Split (suite : Suite) (mtu : Nat) (next : UInt16) (bytes : Bytes) (written : List Bytes)
    (packets : List Packet) (series : List Fragment) : Prop where
  several : 2 ≤ written.length
  fits : ∀ wire ∈ written, wire.length ≤ mtu
  read : List.Forall₂ (fun wire packet =>
    suite.decodeBehindSwitch wire = .ok (packet, (Switch.dropFrom wire).length)) written packets
  fragments : packets.map Packet.asFragment? = series.map some
  ofSuite : ∀ a ∈ series, a.suite = suite
  complete : Series.Complete series
  numbers : series.map (·.header.seqno.toNat) =
    (List.range series.length).map fun i => (next.toNat + i) % FragmentHeader.seqnoModulus
  whole : Series.whole series = bytes

variable {suite : Suite} {overhead mtu : Nat} {bytes : Bytes}

/-- What is written for a link is read back as a complete series. -/
theorem exists_split (hsuite : suite.fragmentOverhead? = some overhead) (hroom : overhead < mtu)
    (hmtu : mtu < 0x10000) (hlong : mtu < bytes.length) (next : UInt16) :
    ∃ packets series, Split suite mtu next bytes
      (fragments suite next (Bytes.pieces (mtu - overhead - 1) bytes)) packets series := by
  generalize hpieces : Bytes.pieces (mtu - overhead - 1) bytes = pieces
  have hmany : 2 ≤ pieces.length := hpieces ▸ Bytes.two_le_length_pieces (by omega)
  have hshort : ∀ piece ∈ pieces, piece.length + overhead ≤ mtu := by
    intro piece hpiece
    have hlength := Bytes.length_le_of_mem_pieces (hpieces ▸ hpiece)
    omega
  have hmem : ∀ a ∈ series suite next pieces, a.suite = suite ∧
      a.piece.length + overhead ≤ mtu ∧ a.header.seqno.toNat < FragmentHeader.seqnoModulus := by
    intro a ha
    obtain ⟨i, hi, rfl⟩ := List.mem_mapIdx.1 ha
    exact ⟨rfl, hshort _ (List.getElem_mem hi), seqnoAfter_lt next i⟩
  have hread : ∀ a : Fragment, ∃ packet, a ∈ series suite next pieces →
      suite.decodeBehindSwitch (suite.fragmentBytes a.header a.piece) =
          .ok (packet, (Switch.dropFrom (suite.fragmentBytes a.header a.piece)).length) ∧
        packet.asFragment? = some a := by
    intro a
    by_cases ha : a ∈ series suite next pieces
    · obtain ⟨hof, hfits, hseqno⟩ := hmem a ha
      obtain ⟨packet, hdecode, hfragment⟩ := Suite.decode_fragmentBytes hsuite a.header
        (Nat.lt_of_le_of_lt hfits hmtu) hseqno
      have hsame := congrArg (fun s => some (Fragment.mk s a.header a.piece)) hof.symm
      exact ⟨packet, fun _ => ⟨hdecode, hfragment.trans hsame⟩⟩
    · exact ⟨⟨[], .fragment a.header ⟨0, 0⟩, .ndn {}⟩, fun h => absurd h ha⟩
  choose packet hpacket using hread
  refine ⟨(series suite next pieces).map packet, series suite next pieces, ?_⟩
  exact {
    several := (length_fragments suite next pieces).symm ▸ hmany
    fits := by
      intro wire hwire
      rw [fragments_eq_map_series, List.mem_map] at hwire
      obtain ⟨a, ha, rfl⟩ := hwire
      obtain ⟨-, hfits, -⟩ := hmem a ha
      exact (Suite.length_fragmentBytes_le hsuite a.header
        (Nat.lt_of_le_of_lt hfits hmtu)).trans hfits
    read := by
      rw [fragments_eq_map_series, List.forall₂_map_left_iff, List.forall₂_map_right_iff,
        List.forall₂_same]
      exact fun a ha => (hpacket a ha).1
    fragments := by
      rw [List.map_map]
      exact List.map_congr_left fun a ha => (hpacket a ha).2
    ofSuite := fun a ha => (hmem a ha).1
    complete := complete_series suite next pieces hmany
    numbers := by rw [numbers_series, length_series]
    whole := by rw [whole_series, ← hpieces, Bytes.flatten_pieces] }

/-- A packet that is longer than its link carries is written in fragments that fit the link. They
    are read as a complete series with the packet's bytes, numbered on from the fragmenter's next
    number, and any reassembler that is fed them hands the packet over with the last one, unless
    the packet is too long for it. -/
theorem fragment_split (hsuite : (suite, overhead) ∈ [(Suite.ndn, 12), (.ccnx, 12), (.iot, 15)])
    (hroom : overhead < mtu) (hmtu : mtu ≤ 65535) (hlong : mtu < bytes.length) (next : UInt16) :
    suite.fragmentOverhead? = some overhead ∧
      ∃ written packets series next',
        fragment ⟨some mtu, next⟩ suite bytes = (.ok (some written), ⟨some mtu, next'⟩) ∧
        next'.toNat = (next.toNat + written.length) % FragmentHeader.seqnoModulus ∧
        Split suite mtu next bytes written packets series ∧
        ∀ r : Reassembler,
          r.wholes packets = List.replicate (written.length - 1) none ++
            [if bytes.length ≤ maxPacketSize then some bytes else none] ∧
          r.after packets = .idle := by
  have hoverhead : suite.fragmentOverhead? = some overhead := by
    simp only [List.mem_cons, Prod.mk.injEq, List.not_mem_nil, or_false] at hsuite
    rcases hsuite with ⟨rfl, rfl⟩ | ⟨rfl, rfl⟩ | ⟨rfl, rfl⟩ <;> rfl
  have hmtu : mtu < 0x10000 := Nat.lt_succ_of_le hmtu
  obtain ⟨packets, series, hsplit⟩ := exists_split hoverhead hroom hmtu hlong next
  refine ⟨hoverhead, _, packets, series, _, fragment_eq hoverhead hroom hmtu hlong next, ?_,
    hsplit, fun r => ?_⟩
  · rw [toNat_seqnoAfter, length_fragments]
  · rw [hsplit.read.length_eq]
    simpa only [hsplit.whole] using r.after_complete hsplit.fragments hsplit.complete

/-- The numbers of four fragments run over the greatest one. -/
theorem fragment_split_around :
    ∃ written packets series,
      fragment ⟨some 20, 0x3ffe⟩ .ndn (List.replicate 30 7) =
        (.ok (some written), ⟨some 20, 2⟩) ∧
      Split .ndn 20 0x3ffe (List.replicate 30 7) written packets series ∧
      series.map (·.header.seqno.toNat) = [0x3ffe, 0x3fff, 0, 1] ∧
      Reassembler.idle.wholes packets = [none, none, none, some (List.replicate 30 7)] := by
  have hroom : (20 : Nat) < (List.replicate 30 7 : Bytes).length := by decide
  obtain ⟨hoverhead, written, packets, series, next', hwritten, hnext, hsplit, hfed⟩ :=
    @fragment_split .ndn 12 20 (List.replicate 30 7) (by decide) (by decide) (by decide) hroom 0x3ffe
  have hfour : (Bytes.pieces 7 (List.replicate 30 7)).length = 4 := by
    simp [List.replicate, Bytes.pieces]
  have hcount : written.length = 4 := by
    have hsame := hwritten.symm.trans (fragment_eq hoverhead (by decide) (by decide) hroom 0x3ffe)
    simp only [Prod.mk.injEq, Except.ok.injEq, Option.some.injEq] at hsame
    rw [hsame.1, length_fragments, hfour]
  have hseries : series.length = 4 := by
    have hlength := congrArg List.length hsplit.fragments
    rw [List.length_map, List.length_map, ← hsplit.read.length_eq, hcount] at hlength
    exact hlength.symm
  have htwo : next' = 2 := by
    rw [← UInt16.toNat_inj, hnext, hcount]
    decide
  refine ⟨written, packets, series, htwo ▸ hwritten, hsplit, ?_, ?_⟩
  · rw [hsplit.numbers, hseries]
    decide
  · rw [(hfed .idle).1, hcount]
    decide

end Fragmenter

end NameRelay
