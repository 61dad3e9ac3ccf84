-- SUMMARY: What is too long for a CCNB header is written, but it is never read.
import NameRelay.Proofs.Format.Ccnb.Framing
import NameRelay.Proofs.Format.Ccnb.Packet

/-!
# The limits of CCNB headers

A writer spreads a length over as many bytes as it takes, and a reader gives up at the ninth. So a
content is read only if its payload and all components of its name are shorter than `2 ^ 53` bytes,
and nothing has to be known of them beforehand.
-/

namespace NameRelay.Ccnb

/-! ## Headers -/

theorem lt_of_highBits (n : Nat) : n < 128 ^ (highBits n).length := by
  fun_induction highBits n with
  | case1 => simp
  | case2 n hn ih =>
    simp only [List.length_append, List.length_singleton, Nat.pow_succ]
    omega

/-- After as many leading bytes as there may be in all, no number is read. -/
theorem headerFrom_error {high : Bytes} (hhigh : ∀ b ∈ high, b.toNat < 128) {fuel : Nat}
    (hfuel : fuel ≤ high.length) (last : UInt8) (number pos : Nat) (rest : Bytes) {b : UInt8}
    {tail : Bytes} (h : high ++ last :: rest = b :: tail) :
    headerFrom fuel number b ⟨pos, tail⟩ = .error (.malformed .headerTooLong) := by
  induction high generalizing fuel number pos b tail with
  | nil =>
    cases Nat.le_zero.1 hfuel
    rfl
  | cons first high ih =>
    cases fuel with
    | zero => rfl
    | succ fuel =>
      obtain ⟨rfl, htail⟩ := List.cons.inj h
      have hlow : ¬128 ≤ first.toNat := Nat.not_le_of_lt (hhigh first List.mem_cons_self)
      cases tail with
      | nil => simp at htail
      | cons next more =>
        simp only [headerFrom, hlow, if_false, Cursor.byte]
        apply ih _ (Nat.le_of_succ_le_succ hfuel) _ _ htail
        intro b hb
        exact hhigh b (List.mem_cons_of_mem first hb)

/-- A header with a number that is too large is not read. -/
theorem token_headerBytes_error {number : Nat} (h : 2 ^ 53 ≤ number) (kind pos : Nat)
    (rest : Bytes) :
    token ⟨pos, headerBytes number kind ++ rest⟩ = .error (.malformed .headerTooLong) := by
  have hlength : maxHeaderBytes ≤ (highBits (number / 16)).length := by
    have hbits := lt_of_highBits (number / 16)
    by_contra hshort
    have hpow := Nat.pow_le_pow_right (by decide : 0 < 128)
      (Nat.le_of_lt_succ (Nat.lt_of_not_le hshort))
    omega
  rw [headerBytes]
  generalize UInt8.ofNat (128 + number % 16 * 8 + kind) = last
  cases hhigh : highBits (number / 16) with
  | nil =>
    rw [hhigh] at hlength
    cases hlength
  | cons first high =>
    have hread := headerFrom_error (fun _ hb => lt_of_mem_highBits hb) hlength last 0 (pos + 1) rest
      (by rw [hhigh, List.cons_append])
    simp [token, Cursor.byte, head_highBits hhigh, hread]

/-! ## Values, names and contents -/

/-- A value that is read is not too long. -/
theorem short_of_value {kind depth pos : Nat} {data rest : Bytes} {r : Option Span × Cursor}
    (h : value depth ⟨pos, dataBytes kind data ++ rest⟩ = .ok r) : data.length < 2 ^ 53 := by
  by_contra hlong
  have htoken := token_headerBytes_error (Nat.le_of_not_lt hlong) kind pos (data ++ 0 :: rest)
  have hbytes : dataBytes kind data ++ rest =
      headerBytes data.length kind ++ (data ++ 0 :: rest) := by
    simp [dataBytes]
  rw [value, untilClosed_eq, hbytes, htoken] at h
  cases h

variable {packet : Bytes}

/-- Components that are read are not too long, and they can be collected. -/
theorem collected_of_readName {wires : List Bytes} {read : Name} {pos : Nat} {rest : Bytes}
    {r : Name × Cursor} (hin : (⟨pos, componentsBytes wires ++ 0 :: rest⟩ : Cursor).In packet)
    (h : readName packet read ⟨pos, componentsBytes wires ++ 0 :: rest⟩ = .ok r) :
    (∀ wire ∈ wires, wire.length < 2 ^ 53) ∧
      ∃ collected, wires.foldlM Name.readWire read = .ok collected := by
  induction wires generalizing read pos with
  | nil => exact ⟨nofun, read, rfl⟩
  | cons wire wires ih =>
    have hbytes : componentsBytes (wire :: wires) ++ 0 :: rest =
        headerBytes componentTag tagKind ++
          (dataBytes blobKind wire ++ (componentsBytes wires ++ 0 :: rest)) := by
      simp [componentsBytes, fieldBytes]
    have hheader := @token_headerBytes componentTag tagKind (by decide) (by decide) pos
      (dataBytes blobKind wire ++ (componentsBytes wires ++ 0 :: rest))
    rw [hbytes] at hin h
    rw [readName_eq] at h
    obtain ⟨_, ht, hopened⟩ := ok_of_bind h
    cases hheader.symm.trans ht
    simp only [and_self, if_true] at hopened
    obtain ⟨v, hvalue, hcomponent⟩ := ok_of_bind hopened
    have hshort := short_of_value hvalue
    obtain ⟨span, hspan, hof⟩ := value_dataBytes (.inl rfl) hshort 2 hin.drop
    cases hspan.symm.trans hvalue
    obtain ⟨longer, hwire, hmore⟩ := ok_of_bind hcomponent
    simp only [valueBytes, hof] at hwire
    obtain ⟨hall, collected, hcollected⟩ := ih hin.drop.drop hmore
    refine ⟨List.forall_mem_cons.2 ⟨hshort, hall⟩, collected, ?_⟩
    rw [List.foldlM_cons, hwire]
    exact hcollected

/-- What the reader of a tagged field made of it, if all fields are read. -/
theorem readField_of_readFields {tag : Nat} (htag : tag < 2 ^ 53) {draft : Draft} {pos : Nat}
    {body : Bytes} {r : Draft × Cursor}
    (h : readFields packet draft ⟨pos, headerBytes tag tagKind ++ body⟩ = .ok r) :
    ∃ f, readField packet draft tag ⟨pos + (headerBytes tag tagKind).length, body⟩ = .ok f := by
  rw [readFields_eq, token_headerBytes htag (by decide)] at h
  obtain ⟨_, ht, hopened⟩ := ok_of_bind h
  cases ht
  simp only [if_true] at hopened
  obtain ⟨f, hfield, -⟩ := ok_of_bind hopened
  exact ⟨f, hfield⟩

/-- The fields of a packet that is read are read. -/
theorem readFields_of_decode {tag : Nat} (htag : tag < 2 ^ 53) {fields : Bytes} {r : Packet × Nat}
    (h : decode (packetBytes tag fields) = .ok r) :
    ∃ f, readFields (packetBytes tag fields) {}
      ⟨(headerBytes tag tagKind).length, fields ++ [0]⟩ = .ok f := by
  have hopen := @token_headerBytes tag tagKind htag (by decide) 0 (fields ++ [0])
  rw [Nat.zero_add] at hopen
  rw [decode_eq, Cursor.ofBytes] at h
  obtain ⟨⟨t, c⟩, ht, hhead⟩ := ok_of_bind h
  cases hopen.symm.trans ht
  obtain ⟨kind, -, hfields⟩ := ok_of_bind hhead
  obtain ⟨f, hread, -⟩ := ok_of_bind hfields
  exact ⟨f, hread⟩

/-- A packet that is read has a name that is reread, if that is written first, and no component of it
    is too long. -/
theorem reread_of_decode {name : Name} (hsuite : name.suite = .ccnb) {tag : Nat}
    (htag : tag < 2 ^ 53) {more : Bytes} {r : Packet × Nat}
    (h : decode (packetBytes tag (nameBytes name ++ more)) = .ok r) :
    (∃ read, name.reread = .ok read) ∧ ∀ wire ∈ name.wireComponents, wire.length < 2 ^ 53 := by
  have hin := fields_in_packetBytes tag (nameBytes name ++ more)
  have hopened : nameBytes name ++ more ++ [0] = headerBytes nameTag tagKind ++
      (componentsBytes name.wireComponents ++ 0 :: (more ++ [0])) := by
    simp [nameBytes]
  obtain ⟨_, hread⟩ := readFields_of_decode htag h
  rw [hopened] at hin hread
  obtain ⟨_, hfield⟩ := readField_of_readFields (by decide) hread
  rw [readField, if_pos rfl] at hfield
  obtain ⟨_, hcomponents, -⟩ := ok_of_bind hfield
  obtain ⟨hwires, collected, hcollected⟩ := collected_of_readName hin.drop hcomponents
  refine ⟨⟨collected.stripMarkers, ?_⟩, hwires⟩
  rw [Name.reread, hsuite, hcollected]
  rfl

/-- A content that is read has a name that is reread, and neither a component of it nor the payload
    is too long. -/
theorem limits_of_decode {name : Name} (hsuite : name.suite = .ccnb) {payload : Bytes}
    {o : ContentOptions} {r : Packet × Nat}
    (h : decode (packetBytes contentObjectTag (contentBytes name payload o)) = .ok r) :
    (∃ read, name.reread = .ok read) ∧ (∀ wire ∈ name.wireComponents, wire.length < 2 ^ 53) ∧
      payload.length < 2 ^ 53 := by
  have hin := fields_in_packetBytes contentObjectTag (contentBytes name payload o)
  obtain ⟨⟨read, hreread⟩, hwires⟩ := reread_of_decode hsuite (by decide) h
  obtain ⟨_, hread⟩ := readFields_of_decode (by decide) h
  refine ⟨⟨read, hreread⟩, hwires, ?_⟩
  -- The payload is read behind the fields that are known to be taken.
  have hbehind : contentBytes name payload o ++ [0] =
      (nameBytes name ++ o.finalBlock.elim [] finalBlockBytes) ++
        (headerBytes contentTag tagKind ++ (dataBytes blobKind payload ++ [0])) := by
    simp [contentBytes, fieldBytes]
  rw [hbehind] at hin hread
  rw [(takes_name hreread hsuite hwires).append
    (takes_optional o.finalBlock fun block _ => takes_finalBlock block) {} _ _ hin] at hread
  obtain ⟨_, hcontent⟩ := readField_of_readFields (by decide) hread
  rw [readField, if_neg (by decide), if_neg (by decide)] at hcontent
  obtain ⟨_, hvalue, -⟩ := ok_of_bind hcontent
  exact short_of_value hvalue

end NameRelay.Ccnb
