-- SUMMARY: A chunk number survives on the wire, but for the one that spells a marker where components are framed.
import NameRelay.Proofs.Format.Rereading
import NameRelay.Proofs.Name.Chunks

/-!
# Chunk numbers on the wire

The component for a chunk number is written like any other, and the number is found in it again. But
a reader also takes a marker off the end of a name, and tells it by its value and not by its type.
The suites without frames put a mark in front of a number, which no marker begins with, and one of the
suites with frames writes every number in four bytes, which no marker has. The other writes the
shortest form, and there one number of all reads like a marker: the chunk with this number is read as
a request for a computed result under the name without the number.
-/

namespace NameRelay

namespace Component

variable {suite : Suite} {n : UInt32} {wire : Bytes}

/-- Of all chunk components only one has the value of a marker. -/
theorem value_ofChunk_eq_nfn_iff (h : ofChunk suite n = .ok wire) :
    value suite wire = nfnWord ↔ suite = .ccnx ∧ n = 0x4e464e := by
  have hmarked : ∀ digits : Bytes, chunkMark :: digits ≠ nfnWord := fun _ => nofun
  cases suite with
  | ccnb | ndn =>
    cases h
    exact iff_of_false (hmarked _) nofun
  | cisco =>
    obtain rfl := Except.ok.inj ((ofChunk_cisco n).symm.trans h)
    rw [value_frame rfl]
    refine iff_of_false ?_ nofun
    intro hword
    have hlength := congrArg List.length hword
    rw [length_bigEndian] at hlength
    cases hlength
  | ccnx =>
    obtain rfl := Except.ok.inj ((ofChunk_ccnx n).symm.trans h)
    rw [value_frame rfl]
    constructor
    · intro hword
      -- The shortest form can be read back, so that only one number has these digits.
      have hnumber := value_minimalBigEndian (n := n.toNat) (by have := n.toNat_lt; omega)
      rw [hword] at hnumber
      exact ⟨rfl, UInt32.toNat_inj.1 hnumber.symm⟩
    · rintro ⟨-, rfl⟩
      decide
  | iot => cases h

end Component

namespace Name

variable {base chunked name : Name} {n : UInt32}

/-- The name is that of a chunk: behind as many components as `base` has there is the one for the
    number, the name says the number, and it asks for no computed result. -/
structure IsChunk (name base : Name) (n : UInt32) : Prop where
  chunk : name.chunk = some n
  size : name.size = base.size + 1
  last : ∃ wire, Component.ofChunk base.suite n = .ok wire ∧ name.components.getLast? = some wire
  flags : name.flags = .none

theorem nfn_stripMarkers (h : name.endsIn Component.nfnWord = true) :
    name.stripMarkers.flags.nfn = true := by
  rw [stripMarkers, if_pos h]
  dsimp only
  split <;> rfl

/-- The name of a chunk is reread, and as one just if its last component does not look like a
    marker. -/
theorem reread_withChunk (hchunk : base.withChunk n = .ok chunked) (hflags : base.flags = .none) :
    ∃ read, chunked.reread = .ok read ∧
      (read.IsChunk base n ↔ ¬(base.suite = .ccnx ∧ n = 0x4e464e)) := by
  obtain ⟨wire, hwire, hroom, rfl⟩ := withChunk_eq_ok_iff.1 hchunk
  have hlength : (base.components ++ [wire]).length ≤ maxComponents := by
    rw [List.length_append]
    exact hroom
  have hbare : (⟨base.suite, base.components ++ [wire], some n, base.flags⟩ : Name).wireComponents =
      base.components ++ [wire] := by
    simp [wireComponents, markers, hflags, FunctionFlags.none]
  refine ⟨(ofWire base.suite (base.components ++ [wire])).stripMarkers, ?_, ?_⟩
  · rw [reread, hbare, foldlM_readWire hlength]
    rfl
  have hends : (ofWire base.suite (base.components ++ [wire])).endsIn Component.nfnWord =
      (Component.value base.suite wire == Component.nfnWord) := by
    simp [endsIn, ofWire]
  rw [← Component.value_ofChunk_eq_nfn_iff hwire]
  by_cases hword : Component.value base.suite wire = Component.nfnWord
  · rw [hword, beq_self_eq_true] at hends
    refine iff_of_false ?_ (not_not_intro hword)
    intro hread
    have hnfn := nfn_stripMarkers hends
    rw [hread.flags] at hnfn
    cases hnfn
  · rw [beq_eq_false_iff_ne.2 hword] at hends
    refine iff_of_true ?_ hword
    rw [stripMarkers, hends, if_neg Bool.false_ne_true]
    refine ⟨?_, ?_, ⟨wire, hwire, List.getLast?_concat⟩, rfl⟩
    · rw [ofWire, lastChunk_concat, (Component.chunk?_ofChunk hwire).2]
      rfl
    · simp [ofWire, size]

/-- If an interest or a content with the name of a chunk can be written, it is read, and under a name
    that is the chunk's, unless the suite is CCNx and the digits of the number are the marker word. -/
theorem chunk_survives_iff (hmade : base.Made) (hchunks : base.suite.hasChunks = true)
    (hsize : base.size < maxComponents) (hflags : base.flags = .none)
    (hshort : ∀ wire ∈ base.components, wire.length < 2 ^ 53) (n : UInt32) :
    ∃ chunked, base.withChunk n = .ok chunked ∧
      (∀ o wire, base.suite.encodeInterest chunked o = .ok wire → ∃ packet read,
        base.suite.decodeBehindSwitch wire = .ok (packet, (Switch.dropFrom wire).length) ∧
          packet.body = .message .interest read none ∧
          (read.IsChunk base n ↔ ¬(base.suite = .ccnx ∧ n = 0x4e464e))) ∧
      ∀ payload o wire, payload.length < 2 ^ 53 →
        base.suite.encodeContent chunked payload o = .ok wire → ∃ packet read span,
          base.suite.decodeBehindSwitch wire = .ok (packet, (Switch.dropFrom wire).length) ∧
            packet.body = .message .content read (some span) ∧
            (read.IsChunk base n ↔ ¬(base.suite = .ccnx ∧ n = 0x4e464e)) := by
  obtain ⟨last, hlast, hlength⟩ := Component.exists_ofChunk hchunks n
  let chunked : Name := ⟨base.suite, base.components ++ [last], some n, base.flags⟩
  have hchunk : base.withChunk n = .ok chunked := withChunk_eq_ok_iff.2 ⟨last, hlast, hsize, rfl⟩
  have hkept : chunked.Kept := (hmade.withChunk hchunk).kept
  have hroom : chunked.size ≤ maxComponents := size_withChunk_le hchunk
  have hcomponents : ∀ wire ∈ chunked.components, wire.length < 2 ^ 53 := by
    intro wire hwire
    rcases List.mem_append.1 hwire with hold | hnew
    · exact hshort wire hold
    · rw [List.mem_singleton.1 hnew]
      omega
  obtain ⟨read, hreread, hread⟩ := reread_withChunk hchunk hflags
  refine ⟨chunked, hchunk, ?_, ?_⟩
  · intro o wire hok
    obtain ⟨d, -, -, hdecode⟩ := Suite.decode_interest_reread hkept hroom hcomponents hok
    rw [hreread] at hdecode
    exact ⟨_, read, eq_ok_of_toOption hdecode, rfl, hread⟩
  · intro payload o wire hpayload hok
    obtain ⟨span, hdecode, -⟩ :=
      Suite.decode_content_reread hkept hroom hcomponents hpayload hreread hok
    exact ⟨_, read, span, hdecode, rfl, hread⟩

/-- An interest for the chunk of `/a` in CCNx whose number is written `NFN` loses the number, and one
    for the next chunk keeps it. -/
theorem marker_number_lost :
    let base : Name := ⟨.ccnx, [[0, 1, 0, 1, 97]], none, .none⟩
    let lost : Name := ⟨.ccnx, [[0, 1, 0, 1, 97], [0, 16, 0, 3, 78, 70, 78]], some 0x4e464e, .none⟩
    let kept : Name := ⟨.ccnx, [[0, 1, 0, 1, 97], [0, 16, 0, 3, 78, 70, 79]], some 0x4e464f, .none⟩
    base.withChunk 0x4e464e = .ok lost ∧ base.withChunk 0x4e464f = .ok kept ∧
      (∃ wire packet read n, Suite.ccnx.encodeInterest lost {} = .ok wire ∧
        Suite.ccnx.decodeBehindSwitch wire = .ok (packet, n) ∧
        packet.body = .message .interest read none ∧ ¬read.IsChunk base 0x4e464e) ∧
      ∃ wire packet read n, Suite.ccnx.encodeInterest kept {} = .ok wire ∧
        Suite.ccnx.decodeBehindSwitch wire = .ok (packet, n) ∧
        packet.body = .message .interest read none ∧ read.IsChunk base 0x4e464f := by
  intro base lost kept
  have hpush : (root .ccnx).push [97] = .ok base := rfl
  have hmade : base.Made := (Made.root .ccnx).push hpush
  have hsurvives := chunk_survives_iff hmade rfl (by decide) rfl (by decide)
  have hlost : base.withChunk 0x4e464e = .ok lost := eq_ok_of_toOption (by decide +kernel)
  have hkept : base.withChunk 0x4e464f = .ok kept := eq_ok_of_toOption (by decide +kernel)
  have hlostWire : Suite.ccnx.encodeInterest lost {} = .ok [1, 0, 0, 28, 64, 0, 0, 8, 0, 1, 0, 16, 0, 0,
      0, 12, 0, 1, 0, 1, 97, 0, 16, 0, 3, 78, 70, 78] := eq_ok_of_toOption (by decide +kernel)
  have hkeptWire : Suite.ccnx.encodeInterest kept {} = .ok [1, 0, 0, 28, 64, 0, 0, 8, 0, 1, 0, 16, 0, 0,
      0, 12, 0, 1, 0, 1, 97, 0, 16, 0, 3, 78, 70, 79] := eq_ok_of_toOption (by decide +kernel)
  refine ⟨hlost, hkept, ?_, ?_⟩
  · obtain ⟨chunked, hchunk, hinterest, -⟩ := hsurvives 0x4e464e
    cases hchunk.symm.trans hlost
    obtain ⟨packet, read, hread, hbody, hiff⟩ := hinterest _ _ hlostWire
    exact ⟨_, packet, read, _, hlostWire, hread, hbody, fun h => hiff.1 h ⟨rfl, rfl⟩⟩
  · obtain ⟨chunked, hchunk, hinterest, -⟩ := hsurvives 0x4e464f
    cases hchunk.symm.trans hkept
    obtain ⟨packet, read, hread, hbody, hiff⟩ := hinterest _ _ hkeptWire
    exact ⟨_, packet, read, _, hkeptWire, hread, hbody, hiff.2 fun h => absurd h.2 (by decide)⟩

end Name

end NameRelay
