-- SUMMARY: Buffers in sequence are read as one after the other, if the switch in force allows it.
import NameRelay.Proofs.Format.Framing
import NameRelay.Relay.Datagram

/-!
# Datagrams in sequence

A buffer that was read to its end is read the same with more bytes behind it, and then the reading
goes on with those. It goes on under the switch that was met last, which reading them alone does not
know of. Places in the buffer count for the records only.
-/

namespace NameRelay

/-! ## What stands at the front -/

/-- What looks like a packet of a suite looks the same with more bytes behind it. -/
theorem Suite.sniff?_append {bytes : Bytes} {suite : Suite} (h : Suite.sniff? bytes = some suite)
    (more : Bytes) : Suite.sniff? (bytes ++ more) = some suite := by
  rcases bytes with _ | ⟨first, _ | ⟨second, rest⟩⟩
  · cases h
  · simp only [sniff?] at h
    split at h
    · rename_i hfirst
      simp only [List.cons_append, sniff?, if_pos hfirst, h]
    · cases h
  · have hlater : (rest[5]?.any (8 ≤ ·)) = true → ((rest ++ more)[5]?.any (8 ≤ ·)) = true := by
      intro hlength
      cases hfifth : rest[5]? with
      | none =>
        rw [hfifth] at hlength
        cases hlength
      | some n =>
        have hin := (List.getElem?_eq_some_iff.1 hfifth).1
        rw [List.getElem?_append_left hin, hfifth]
        rwa [hfifth] at hlength
    simp only [sniff?] at h
    simp only [List.cons_append, sniff?]
    split at h
    · rename_i hfirst
      rw [if_pos hfirst, h]
    · rename_i hfirst
      rw [if_neg hfirst]
      split at h
      · rename_i hccnb
        rw [if_pos hccnb, h]
      · rename_i hccnb
        rw [if_neg hccnb]
        split at h
        · rename_i hccnx
          rw [if_pos ⟨hccnx.1, hccnx.2.1, hlater hccnx.2.2⟩, h]
        · cases h

namespace Switch

theorem read?_none_iff {bytes : Bytes} : read? bytes = .ok none ↔ bytes.head? ≠ some mark := by
  unfold read?
  split
  · rename_i hmark
    refine ⟨fun h => ?_, fun h => absurd hmark h⟩
    obtain ⟨⟨b, c⟩, -, hcode⟩ := ok_of_bind h
    obtain ⟨⟨code, c⟩, -, hsuite⟩ := ok_of_bind hcode
    dsimp only at hsuite
    split at hsuite <;> cases hsuite
  · rename_i hmark
    exact ⟨fun _ => hmark, fun _ => rfl⟩

theorem read?_append_none {bytes : Bytes} (hne : bytes ≠ []) (h : read? bytes = .ok none)
    (more : Bytes) : read? (bytes ++ more) = .ok none := by
  rw [read?_none_iff] at h ⊢
  cases bytes with
  | nil => exact absurd rfl hne
  | cons b rest => exact h

/-- Takes the mark and the code behind it. -/
def takeCode (c : Cursor) : Except DecodeError (Nat × Cursor) :=
  c.byte >>= fun r => r.2.varNumber

theorem frames_takeCode (c : Cursor) : Cursor.Frames takeCode c :=
  (Cursor.frames_byte c).bind fun _ after _ => Cursor.frames_varNumber after

theorem read?_of_mark {bytes : Bytes} (h : bytes.head? = some mark) :
    read? bytes = takeCode (.ofBytes bytes) >>= fun r =>
      match Suite.ofSwitchCode? r.1 with
      | some suite => .ok (some (suite, r.2.pos))
      | none => .error .unknownSuite := by
  rw [read?, if_pos h, takeCode]
  cases (Cursor.ofBytes bytes).byte with
  | error e => rfl
  | ok r => rfl

/-- A switch is read the same with more bytes behind it. -/
theorem read?_append_some {bytes : Bytes} {suite : Suite} {length : Nat}
    (h : read? bytes = .ok (some (suite, length))) (more : Bytes) :
    length ≤ bytes.length ∧ read? (bytes ++ more) = .ok (some (suite, length)) := by
  by_cases hmark : bytes.head? = some mark
  · rw [read?_of_mark hmark] at h
    obtain ⟨⟨code, after⟩, hcode, hsuite⟩ := ok_of_bind h
    obtain ⟨taken, hrest, hagain⟩ := frames_takeCode _ hcode
    have hafter := Cursor.Frames.after_eq hcode hrest hagain
    simp only [Cursor.ofBytes, Nat.zero_add] at hrest hagain hafter
    have hmark' : (bytes ++ more).head? = some mark := by
      rw [List.head?_append, hmark]
      rfl
    rw [hafter] at hsuite
    dsimp only at hsuite
    split at hsuite
    · rename_i found hfound
      cases hsuite
      refine ⟨?_, ?_⟩
      · rw [hrest, List.length_append]
        exact Nat.le_add_right _ _
      · rw [read?_of_mark hmark', hrest, List.append_assoc, Cursor.ofBytes, hagain]
        simp only [bind, Except.bind, hfound]
    · cases hsuite
  · rw [read?_none_iff.2 hmark] at h
    cases h

end Switch

namespace Datagram

/-- The suite that the last switch named when the buffer has been read. -/
def inForce (switched : Option Suite) (bytes : Bytes) : Option Suite :=
  if _hne : bytes = [] then switched
  else
    match _hs : Switch.read? bytes with
    | .error _ => switched
    | .ok (some (suite, length)) => inForce (some suite) (bytes.drop length)
    | .ok none =>
      match switched.or (Suite.sniff? bytes) with
      | none => switched
      | some suite =>
        match suite.decode bytes with
        | .error _ => switched
        | .ok (_, consumed) =>
          if _hc : consumed = 0 then switched
          else inForce switched (bytes.drop consumed)
termination_by bytes.length
decreasing_by
  · have := List.length_pos_iff.2 _hne
    have := Switch.read?_pos _hs
    simp only [List.length_drop]
    omega
  · have := List.length_pos_iff.2 _hne
    simp only [List.length_drop]
    omega

theorem consumed_ne_zero {suite : Suite} {bytes : Bytes} {p : Packet} {n : Nat}
    (h : suite.decode bytes = .ok (p, n)) : n ≠ 0 :=
  Nat.pos_iff_ne_zero.1 (Suite.decode_framed h).positive

/-- A packet is read the same with more bytes behind it. -/
theorem decode_append {suite : Suite} {bytes : Bytes} {p : Packet} {n : Nat}
    (h : suite.decode bytes = .ok (p, n)) (more : Bytes) :
    suite.decode (bytes ++ more) = .ok (p, n) := by
  have hagain := (Suite.decode_framed h).again (bytes.drop n ++ more)
  rwa [← List.append_assoc, List.take_append_drop] at hagain

section Steps

variable {switched : Option Suite} {bytes : Bytes} {suite : Suite} {length : Nat} {packet : Packet}

theorem ne_nil_of_switch (h : Switch.read? bytes = .ok (some (suite, length))) : bytes ≠ [] := by
  rintro rfl
  cases h

/-- Reading a buffer is reading what stands in front and going on behind it. -/
theorem readFrom_eq (hne : bytes ≠ []) (switched : Option Suite) (offset : Nat) :
    readFrom switched offset bytes =
      match Switch.read? bytes with
      | .error e => obstructed (.badSwitch offset e)
      | .ok (some (suite, length)) => readFrom (some suite) (offset + length) (bytes.drop length)
      | .ok none =>
        match switched.or (Suite.sniff? bytes) with
        | none => obstructed (.unrecognised offset)
        | some suite =>
          match suite.decode bytes with
          | .error e => obstructed (.undecodable suite bytes e)
          | .ok (packet, consumed) =>
            cons packet (readFrom switched (offset + consumed) (bytes.drop consumed)) := by
  rw [readFrom, dif_neg hne]
  split
  · rename_i h
    rw [h]
  · rename_i h
    rw [h]
  · rename_i h
    rw [h]
    dsimp only
    cases switched.or (Suite.sniff? bytes) with
    | none => rfl
    | some suite =>
      dsimp only
      cases hd : suite.decode bytes with
      | error e => rfl
      | ok r => exact dif_neg (consumed_ne_zero hd)

theorem inForce_eq (hne : bytes ≠ []) (switched : Option Suite) :
    inForce switched bytes =
      match Switch.read? bytes with
      | .error _ => switched
      | .ok (some (suite, length)) => inForce (some suite) (bytes.drop length)
      | .ok none =>
        match switched.or (Suite.sniff? bytes) with
        | none => switched
        | some suite =>
          match suite.decode bytes with
          | .error _ => switched
          | .ok (_, consumed) => inForce switched (bytes.drop consumed) := by
  rw [inForce, dif_neg hne]
  split
  · rename_i h
    rw [h]
  · rename_i h
    rw [h]
  · rename_i h
    rw [h]
    dsimp only
    cases switched.or (Suite.sniff? bytes) with
    | none => rfl
    | some suite =>
      dsimp only
      cases hd : suite.decode bytes with
      | error e => rfl
      | ok r => exact dif_neg (consumed_ne_zero hd)

theorem readFrom_of_switch (h : Switch.read? bytes = .ok (some (suite, length))) (offset : Nat) :
    readFrom switched offset bytes =
      readFrom (some suite) (offset + length) (bytes.drop length) := by
  rw [readFrom_eq (ne_nil_of_switch h), h]

theorem inForce_of_switch (h : Switch.read? bytes = .ok (some (suite, length))) :
    inForce switched bytes = inForce (some suite) (bytes.drop length) := by
  rw [inForce_eq (ne_nil_of_switch h), h]

theorem readFrom_of_badSwitch {e : DecodeError} (h : Switch.read? bytes = .error e) (offset : Nat) :
    readFrom switched offset bytes = obstructed (.badSwitch offset e) := by
  have hne : bytes ≠ [] := by
    rintro rfl
    cases h
  rw [readFrom_eq hne, h]

theorem readFrom_of_packet (hne : bytes ≠ []) (hs : Switch.read? bytes = .ok none)
    (hsuite : switched.or (Suite.sniff? bytes) = some suite)
    (hd : suite.decode bytes = .ok (packet, length)) (offset : Nat) :
    readFrom switched offset bytes =
      cons packet (readFrom switched (offset + length) (bytes.drop length)) := by
  simp only [readFrom_eq hne, hs, hsuite, hd]

theorem inForce_of_packet (hne : bytes ≠ []) (hs : Switch.read? bytes = .ok none)
    (hsuite : switched.or (Suite.sniff? bytes) = some suite)
    (hd : suite.decode bytes = .ok (packet, length)) :
    inForce switched bytes = inForce switched (bytes.drop length) := by
  simp only [inForce_eq hne, hs, hsuite, hd]

end Steps

/-- Where the reading starts counts for its records only. -/
theorem packets_readFrom (switched : Option Suite) (offset other : Nat) (bytes : Bytes) :
    (readFrom switched other bytes).packets = (readFrom switched offset bytes).packets := by
  fun_induction readFrom switched offset bytes generalizing other with
  | case1 =>
    rw [readFrom]
    rfl
  | case2 switched offset bytes hne e hs =>
    rw [readFrom_of_badSwitch hs]
    rfl
  | case3 switched offset bytes hne suite length hs ih =>
    rw [readFrom_of_switch hs]
    exact ih _
  | case4 switched offset bytes hne hs hnone =>
    simp only [readFrom_eq hne, hs, hnone]
    rfl
  | case5 switched offset bytes hne hs suite hsuite e hd =>
    simp only [readFrom_eq hne, hs, hsuite, hd]
  | case6 switched offset bytes hne hs suite hsuite packet hd =>
    exact absurd rfl (consumed_ne_zero hd)
  | case7 switched offset bytes hne hs suite hsuite packet consumed hd hc ih =>
    rw [readFrom_of_packet hne hs hsuite hd]
    exact congrArg (packet :: ·) (ih _)

/-- Bytes that begin with a switch are read the same under any other. -/
theorem readFrom_of_mark {bytes : Bytes} (h : bytes.head? = some Switch.mark)
    (switched other : Option Suite) (offset : Nat) :
    readFrom switched offset bytes = readFrom other offset bytes := by
  cases hs : Switch.read? bytes with
  | error e => rw [readFrom_of_badSwitch hs, readFrom_of_badSwitch hs]
  | ok found =>
    cases found with
    | none => exact absurd h (Switch.read?_none_iff.1 hs)
    | some switch =>
      obtain ⟨suite, length⟩ := switch
      rw [readFrom_of_switch hs, readFrom_of_switch hs]

/-- A buffer that is read to its end, and more bytes, are read one after the other. -/
theorem readFrom_append {switched : Option Suite} {offset : Nat} {bytes : Bytes}
    (hwhole : (readFrom switched offset bytes).obstacle = none) (more : Bytes) :
    readFrom switched offset (bytes ++ more) =
      let behind := readFrom (inForce switched bytes) (offset + bytes.length) more
      ⟨(readFrom switched offset bytes).packets ++ behind.packets, behind.obstacle⟩ := by
  fun_induction readFrom switched offset bytes with
  | case1 switched offset =>
    rw [inForce]
    rfl
  | case2 switched offset bytes hne e hs => cases hwhole
  | case3 switched offset bytes hne suite length hs ih =>
    obtain ⟨hlength, hmore⟩ := Switch.read?_append_some hs more
    have hoffset : offset + length + (bytes.drop length).length = offset + bytes.length := by
      rw [List.length_drop]
      omega
    rw [readFrom_of_switch hmore, List.drop_append_of_le_length hlength, ih hwhole, hoffset,
      inForce_of_switch hs]
  | case4 switched offset bytes hne hs hnone => cases hwhole
  | case5 switched offset bytes hne hs suite hsuite e hd => cases hwhole
  | case6 switched offset bytes hne hs suite hsuite packet hd =>
    exact absurd rfl (consumed_ne_zero hd)
  | case7 switched offset bytes hne hs suite hsuite packet consumed hd hc ih =>
    have hlength := (Suite.decode_framed hd).inside
    have hoffset : offset + consumed + (bytes.drop consumed).length = offset + bytes.length := by
      rw [List.length_drop]
      omega
    have hsuite' : switched.or (Suite.sniff? (bytes ++ more)) = some suite := by
      cases switched with
      | some s => exact hsuite
      | none => exact Suite.sniff?_append hsuite more
    have hne' : bytes ++ more ≠ [] := List.append_ne_nil_of_left_ne_nil hne more
    rw [readFrom_of_packet hne' (Switch.read?_append_none hne hs more) hsuite'
      (decode_append hd more), List.drop_append_of_le_length hlength, ih hwhole, hoffset,
      inForce_of_packet hne hs hsuite hd]
    rfl

/-- Whatever switch the bytes in front left, the packets are those of the bytes behind, if no switch
    is in force there or they begin with one. -/
theorem read_append {bytes more : Bytes} (hwhole : (read bytes).obstacle = none)
    (h : inForce none bytes = none ∨ more.head? = some Switch.mark) :
    (read (bytes ++ more)).packets = (read bytes).packets ++ (read more).packets := by
  have happend := readFrom_append hwhole more
  have hbehind : (readFrom (inForce none bytes) (0 + bytes.length) more).packets =
      (read more).packets := by
    rcases h with hnone | hmark
    · rw [hnone]
      exact packets_readFrom none 0 _ more
    · rw [readFrom_of_mark hmark _ none]
      exact packets_readFrom none 0 _ more
  rw [read, happend]
  exact congrArg ((read bytes).packets ++ ·) hbehind

end Datagram

end NameRelay
