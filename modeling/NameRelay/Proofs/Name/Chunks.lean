-- SUMMARY: The chunks of a name have names of their own, and an interest for one admits no other.
import NameRelay.Proofs.Name.Matching
import NameRelay.Proofs.Name.Restoring

/-!
# The names of chunks

A chunk is named by one component more than the name it belongs to, and the component says its
number. So two chunks of one name have equally long names that differ in the last component, and
neither is admitted for the other: an interest may leave some components of a content open, but not
this one.
-/

namespace NameRelay

namespace Bytes

/-- A piece is a stretch of the bytes, and behind the last piece there is none. -/
theorem getElem?_pieces (room : Nat) (bytes : Bytes) (i : Nat) :
    (pieces room bytes)[i]?.getD [] = (bytes.drop (i * (room + 1))).take (room + 1) := by
  fun_induction pieces room bytes generalizing i with
  | case1 => simp
  | case2 b rest ih =>
    cases i with
    | zero => simp
    | succ i =>
      rw [List.getElem?_cons_succ, ih, List.drop_drop, Nat.succ_mul, ← Nat.add_assoc,
        List.drop_succ_cons, Nat.add_comm (i * (room + 1)) room]

end Bytes

namespace Component

variable {suite : Suite}

theorem value_frame (hframes : suite.framesComponents = true) (type : Nat) (bytes : Bytes) :
    value suite (frame type bytes) = bytes := by
  have hlength := length_frame type bytes
  rw [value, if_pos ⟨hframes, by omega⟩, drop_frame]

theorem ofChunk_ccnx (n : UInt32) :
    ofChunk .ccnx n = .ok (frame ccnxChunkType (minimalBigEndian n.toNat)) := by
  have hlength := length_minimalBigEndian_le n.toNat
  exact if_pos (by omega)

theorem ofChunk_cisco (n : UInt32) :
    ofChunk .cisco n = .ok (frame ciscoChunkType (bigEndian 4 n.toNat)) := by
  have hlength : (bigEndian 4 n.toNat).length < 0x10000 := by
    rw [length_bigEndian]
    decide
  rw [ofChunk, frame?, if_pos hlength]

/-- A suite with chunks has a component for every number, and a short one. -/
theorem exists_ofChunk (h : suite.hasChunks = true) (n : UInt32) :
    ∃ wire, ofChunk suite n = .ok wire ∧ wire.length ≤ 12 := by
  have hminimal := length_minimalBigEndian_le n.toNat
  cases suite with
  | ccnb =>
    refine ⟨_, rfl, ?_⟩
    split
    · decide
    · rw [List.length_cons]
      omega
  | ndn =>
    refine ⟨_, rfl, ?_⟩
    rw [List.length_cons, length_bigEndian]
    repeat' split
    all_goals decide
  | ccnx =>
    refine ⟨_, ofChunk_ccnx n, ?_⟩
    rw [length_frame]
    omega
  | cisco =>
    refine ⟨_, ofChunk_cisco n, ?_⟩
    rw [length_frame, length_bigEndian]
    decide
  | iot => cases h

end Component

namespace Name

variable {name a b : Name} {m n : UInt32}

/-- The name of a chunk is the name with the component for its number, if its suite has one and there
    is room for it. -/
theorem withChunk_eq_ok_iff : name.withChunk n = .ok a ↔ ∃ wire,
    Component.ofChunk name.suite n = .ok wire ∧ name.size < maxComponents ∧
      a = ⟨name.suite, name.components ++ [wire], some n, name.flags⟩ := by
  unfold withChunk pushWire
  cases hwire : Component.ofChunk name.suite n with
  | error e => exact iff_of_false nofun nofun
  | ok wire =>
    by_cases hroom : name.size < maxComponents
    · simp only [bind, Except.bind, hroom, if_true, pure, Except.pure, Except.ok.injEq, true_and,
        exists_eq_left', eq_comm]
    · simp only [bind, Except.bind, hroom, if_false, false_and, and_false, exists_false]
      exact iff_of_false nofun id

/-- The number of a chunk can be read from the last component of its name. -/
theorem withChunk_eq_ok (h : name.withChunk n = .ok a) : ∃ wire,
    Component.chunk? name.suite wire = some n ∧
      a = ⟨name.suite, name.components ++ [wire], some n, name.flags⟩ := by
  obtain ⟨wire, hwire, -, rfl⟩ := withChunk_eq_ok_iff.1 h
  exact ⟨wire, (Component.chunk?_ofChunk hwire).2, rfl⟩

/-- One suite has no chunks. -/
theorem suite_ne_iot_of_withChunk (h : name.withChunk n = .ok a) : name.suite ≠ .iot := by
  intro hiot
  obtain ⟨_, hnumber, -⟩ := withChunk_eq_ok h
  rw [hiot] at hnumber
  cases hnumber

/-- The last component tells chunks apart. -/
theorem components_withChunk_iff (ha : name.withChunk m = .ok a) (hb : name.withChunk n = .ok b) :
    a.components = b.components ↔ m = n := by
  constructor
  · intro heq
    obtain ⟨wire, hm, rfl⟩ := withChunk_eq_ok ha
    obtain ⟨wire', hn, rfl⟩ := withChunk_eq_ok hb
    obtain rfl := List.singleton_inj.1 (List.append_inj_right heq rfl)
    exact Option.some.inj (hm.symm.trans hn)
  · rintro rfl
    cases ha.symm.trans hb
    rfl

/-- Of contents whose names are as long as the one that is wanted only those with this name are
    admitted. -/
theorem admits_of_size (hsuite : b.suite = a.suite) (hsize : b.size = a.size)
    (hroom : b.size ≤ maxComponents) {least most : Nat} (hleast : least ≤ 1) (hmost : 1 ≤ most)
    (digest : Option Bytes) :
    a.admits least most b digest = true ↔ b.components = a.components := by
  have hopen : a.size + least ≤ b.size + 1 ∧ b.size + 1 ≤ a.size + most := by omega
  have hshort : ¬∃ d, digest = some d ∧ a.components = b.components ++ [d] := by
    rintro ⟨d, -, hequal⟩
    have hlonger := size_of_concat hequal
    omega
  rw [admits_iff hsuite hroom, and_iff_right hopen, or_iff_left hshort]
  constructor
  · exact fun hlead => (hlead.eq_of_length hsize.symm).symm
  · exact fun hequal => hequal ▸ List.prefix_rfl

theorem suite_withChunk (h : name.withChunk n = .ok a) : a.suite = name.suite := by
  obtain ⟨_, -, rfl⟩ := withChunk_eq_ok h
  rfl

theorem chunk_withChunk (h : name.withChunk n = .ok a) : a.chunk = some n := by
  obtain ⟨_, -, rfl⟩ := withChunk_eq_ok h
  rfl

theorem size_withChunk (h : name.withChunk n = .ok a) : a.size = name.size + 1 := by
  obtain ⟨_, -, rfl⟩ := withChunk_eq_ok h
  simp [size]

theorem size_withChunk_le (h : name.withChunk n = .ok a) : a.size ≤ maxComponents := by
  obtain ⟨_, -, hroom, rfl⟩ := withChunk_eq_ok_iff.1 h
  rw [size, List.length_append]
  exact hroom

/-- An interest for a chunk admits the same chunk and none beside it. -/
theorem admits_withChunk_iff (ha : name.withChunk m = .ok a) (hb : name.withChunk n = .ok b)
    {least most : Nat} (hleast : least ≤ 1) (hmost : 1 ≤ most) (digest : Option Bytes) :
    a.admits least most b digest = true ↔ m = n := by
  have hsuite := (suite_withChunk hb).trans (suite_withChunk ha).symm
  have hsize := (size_withChunk hb).trans (size_withChunk ha).symm
  rw [admits_of_size hsuite hsize (size_withChunk_le hb) hleast hmost, eq_comm,
    components_withChunk_iff ha hb]

theorem same_withChunk_iff (ha : name.withChunk m = .ok a) (hb : name.withChunk n = .ok b) :
    b.same a = true ↔ m = n := by
  rw [same_iff]
  constructor
  · rintro rfl
    exact (components_withChunk_iff ha hb).1 rfl
  · rintro rfl
    exact Except.ok.inj (hb.symm.trans ha)

end Name

end NameRelay
