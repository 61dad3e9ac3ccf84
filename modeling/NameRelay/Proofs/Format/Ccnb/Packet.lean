-- SUMMARY: CCNB packets read back as what was written.
import NameRelay.Format.Ccnb.Packet
import NameRelay.Proofs.Format.Ccnb.Token
import NameRelay.Proofs.Name.Restoring
import NameRelay.Proofs.Wire.Headers

/-!
# CCNB packets read back

Elements of this suite do not say how long they are, so a packet is followed field by field:
`Takes` says what some bytes do to the draft of a packet, whatever is read behind them.
-/

namespace NameRelay.Ccnb

/-! ## Decimal text -/

theorem toNat_digit {n : Nat} (h : n < 10) :
    (UInt8.ofNat (Nat.digitChar n).toNat).toNat = 0x30 + n := by
  rw [Nat.toNat_digitChar_of_lt_ten h, UInt8.toNat_ofNat']
  omega

theorem decimalBytes_of_lt {n : Nat} (h : n < 10) :
    decimalBytes n = [UInt8.ofNat (Nat.digitChar n).toNat] := by
  rw [decimalBytes, Nat.toDigits_of_lt_base h]
  rfl

theorem decimalBytes_of_le {n : Nat} (h : 10 ≤ n) :
    decimalBytes n = decimalBytes (n / 10) ++ [UInt8.ofNat (Nat.digitChar (n % 10)).toNat] := by
  rw [decimalBytes, Nat.toDigits_of_base_le (by decide) h, List.map_append]
  rfl

theorem length_decimalBytes_le {n k : Nat} (hk : 0 < k) (h : n < 10 ^ k) :
    (decimalBytes n).length ≤ k := by
  rw [decimalBytes, List.length_map]
  exact (Nat.length_toDigits_le_iff (by decide) hk).2 h

theorem digit_of_mem_decimalBytes {n : Nat} {b : UInt8} (h : b ∈ decimalBytes n) :
    0x30 ≤ b ∧ b ≤ 0x39 := by
  have hdigit : ∀ m, m < 10 → b = UInt8.ofNat (Nat.digitChar m).toNat → 0x30 ≤ b ∧ b ≤ 0x39 := by
    intro m hm hb
    have hnat := toNat_digit hm
    rw [← hb] at hnat
    rw [UInt8.le_iff_toNat_le, UInt8.le_iff_toNat_le, hnat]
    exact ⟨Nat.le_add_right _ _, Nat.add_le_add_left (Nat.le_of_lt_succ hm) _⟩
  induction n using Nat.strongRecOn with
  | ind n ih =>
    by_cases hn : n < 10
    · rw [decimalBytes_of_lt hn] at h
      exact hdigit n hn (List.mem_singleton.1 h)
    · rw [decimalBytes_of_le (Nat.le_of_not_lt hn)] at h
      rcases List.mem_append.1 h with hhigh | hlast
      · exact ih (n / 10) (by omega) hhigh
      · exact hdigit (n % 10) (by omega) (List.mem_singleton.1 hlast)

theorem foldl_decimalBytes (n : Nat) :
    (decimalBytes n).foldl (fun n b => n * 10 + (b.toNat - 0x30)) 0 = n := by
  induction n using Nat.strongRecOn with
  | ind n ih =>
    by_cases hn : n < 10
    · rw [decimalBytes_of_lt hn, List.foldl_cons, List.foldl_nil, toNat_digit hn]
      omega
    · have hlast : n % 10 < 10 := by omega
      rw [decimalBytes_of_le (Nat.le_of_not_lt hn), List.foldl_append, ih (n / 10) (by omega),
        List.foldl_cons, List.foldl_nil, toNat_digit hlast]
      omega

/-- Decimal text reads back as the word that it is. -/
theorem decimal?_decimalBytes (n : UInt64) : decimal? (decimalBytes n.toNat) = .ok n := by
  have hlt : n.toNat ≤ word64Max := Nat.le_of_lt_succ n.toNat_lt
  have hdigits : ¬((decimalBytes n.toNat).isEmpty ∨
      ¬(decimalBytes n.toNat).all fun b => 0x30 ≤ b ∧ b ≤ 0x39) := by
    rintro (hempty | hother)
    · simp [decimalBytes] at hempty
    · apply hother
      rw [List.all_eq_true]
      intro b hb
      exact decide_eq_true (digit_of_mem_decimalBytes hb)
  rw [decimal?, if_neg hdigits]
  dsimp only
  rw [foldl_decimalBytes, if_pos hlt, UInt64.ofNat_toNat]

/-! ## Names -/

/-- Reading a name is reading a token and going on from it. -/
theorem readName_eq (packet : Bytes) (name : Name) (c : Cursor) :
    readName packet name c = token c >>= fun r =>
      match r.1 with
      | .close => .ok (name.stripMarkers, r.2)
      | .element number kind =>
        if number = componentTag ∧ kind = tagKind then
          value 2 r.2 >>= fun v => name.readWire (valueBytes packet v.1) >>= fun longer =>
            readName packet longer v.2
        else
          skip 2 number kind r.2 >>= readName packet name := by
  rw [readName]
  split
  · rename_i h
    rw [h]
    rfl
  · rename_i h
    rw [h]
    rfl
  · rename_i number kind next h
    rw [h]
    change _ = if number = componentTag ∧ kind = tagKind then
      value 2 next >>= fun v => name.readWire (valueBytes packet v.1) >>= fun longer =>
        readName packet longer v.2
      else skip 2 number kind next >>= readName packet name
    split
    · split
      · rename_i hv
        rw [hv]
        rfl
      · rename_i v after hv
        rw [hv]
        change _ = name.readWire (valueBytes packet v) >>= fun longer => readName packet longer after
        rw [Name.readWire]
        cases name.pushWire (valueBytes packet v) <;> rfl
    · cases skip 2 number kind next <;> rfl

theorem readName_close {c next : Cursor} (h : token c = .ok (.close, next)) (packet : Bytes)
    (name : Name) : readName packet name c = .ok (name.stripMarkers, next) := by
  rw [readName_eq, h]
  rfl

theorem readName_component {packet : Bytes} {name longer : Name} {c next after : Cursor}
    {v : Option Span} (h : token c = .ok (.element componentTag tagKind, next))
    (hvalue : value 2 next = .ok (v, after))
    (hwire : name.readWire (valueBytes packet v) = .ok longer) :
    readName packet name c = readName packet longer after := by
  simp only [readName_eq packet name c, h, hvalue, hwire, bind, Except.bind, and_self, if_true]

/-- The bytes of components. -/
def componentsBytes (wires : List Bytes) : Bytes := wires.flatMap (fieldBytes componentTag blobKind)

/-- Components are collected in order. -/
theorem readName_components {packet : Bytes} {wires : List Bytes} {read name : Name}
    (hwires : ∀ wire ∈ wires, wire.length < 2 ^ 53)
    (hname : wires.foldlM Name.readWire read = .ok name) {pos : Nat} {rest : Bytes}
    (hin : (⟨pos, componentsBytes wires ++ 0 :: rest⟩ : Cursor).In packet) :
    readName packet read ⟨pos, componentsBytes wires ++ 0 :: rest⟩ =
      .ok (name.stripMarkers, ⟨pos + (componentsBytes wires).length + 1, rest⟩) := by
  induction wires generalizing read pos with
  | nil =>
    cases hname
    exact readName_close (token_close pos rest) packet name
  | cons wire wires ih =>
    rw [List.foldlM_cons] at hname
    cases hnext : read.readWire wire with
    | error e =>
      rw [hnext] at hname
      cases hname
    | ok next =>
      rw [hnext] at hname
      have hbytes : componentsBytes (wire :: wires) ++ 0 :: rest =
          headerBytes componentTag tagKind ++
            (dataBytes blobKind wire ++ (componentsBytes wires ++ 0 :: rest)) := by
        simp [componentsBytes, fieldBytes]
      rw [hbytes] at hin ⊢
      have hheader := @token_headerBytes componentTag tagKind (by decide) (by decide) pos
        (dataBytes blobKind wire ++ (componentsBytes wires ++ 0 :: rest))
      obtain ⟨span, hvalue, hspan⟩ := value_dataBytes (.inl rfl) (hwires wire List.mem_cons_self) 2
        hin.drop
      have hwire : read.readWire (valueBytes packet (some span)) = .ok next := by
        rw [valueBytes, hspan, hnext]
      rw [readName_component hheader hvalue hwire,
        ih (fun w hw => hwires w (List.mem_cons_of_mem wire hw)) hname hin.drop.drop]
      simp only [componentsBytes, fieldBytes, List.flatMap_cons, List.length_append]
      congr 3
      omega

/-- The bytes of a name. -/
def nameBytes (name : Name) : Bytes :=
  headerBytes nameTag tagKind ++ (componentsBytes name.wireComponents ++ [0])

theorem puts_writeName (name : Name) : Write.Puts (writeName name) () (nameBytes name) True := by
  have hcomponents := Write.puts_components (puts_writeField componentTag blobKind) name
  refine ((Write.puts_byte 0).andThen (hcomponents.andThen
    (puts_writeHeader nameTag tagKind))).congr ?_ ?_
  · rw [nameBytes, componentsBytes, List.append_assoc]
  · simp

/-- A written name is reread. -/
theorem readName_nameBytes {packet : Bytes} {name read : Name} (h : name.reread = .ok read)
    (hsuite : name.suite = .ccnb) (hwires : ∀ wire ∈ name.wireComponents, wire.length < 2 ^ 53)
    {pos : Nat} {rest : Bytes}
    (hin : (⟨pos, componentsBytes name.wireComponents ++ 0 :: rest⟩ : Cursor).In packet) :
    readName packet (.root .ccnb) ⟨pos, componentsBytes name.wireComponents ++ 0 :: rest⟩ =
      .ok (read, ⟨pos + (componentsBytes name.wireComponents).length + 1, rest⟩) := by
  rw [Name.reread, hsuite] at h
  cases hcollected : name.wireComponents.foldlM Name.readWire (.root .ccnb) with
  | error e =>
    rw [hcollected] at h
    cases h
  | ok collected =>
    rw [hcollected] at h
    cases h
    exact readName_components hwires hcollected hin

/-- The room for a name is hardly more than the name takes. -/
theorem roomFor_le (name : Name) (payload : Nat) :
    Write.roomFor name payload ≤
      payload + Write.flatAllowance + (nameBytes name).length +
        name.components.length * Write.componentAllowance := by
  have hsum : ∀ wires : List Bytes,
      wires.foldr (fun wire room => wire.length + Write.componentAllowance + room) 0 ≤
        (componentsBytes wires).length + wires.length * Write.componentAllowance := by
    intro wires
    induction wires with
    | nil => exact Nat.le_refl 0
    | cons wire wires ih =>
      have hwire := length_le_fieldBytes componentTag blobKind wire
      simp only [List.foldr_cons, List.length_cons, Nat.succ_mul, componentsBytes, List.flatMap_cons,
        List.length_append] at ih ⊢
      omega
  have hname := hsum name.components
  simp only [Write.roomFor, nameBytes, Name.wireComponents, componentsBytes, List.flatMap_append,
    List.length_append] at hname ⊢
  omega

/-! ## Fields -/

theorem readFields_eq (packet : Bytes) (draft : Draft) (c : Cursor) :
    readFields packet draft c = token c >>= fun r =>
      match r.1 with
      | .close => .ok (draft, r.2)
      | .element number kind =>
        if kind = tagKind then
          readField packet draft number r.2 >>= fun f => readFields packet f.1 f.2
        else
          skip 1 number kind r.2 >>= readFields packet draft := by
  rw [readFields]
  split
  · rename_i h
    rw [h]
    rfl
  · rename_i h
    rw [h]
    rfl
  · rename_i number kind next h
    rw [h]
    change _ = if kind = tagKind then
        readField packet draft number next >>= fun f => readFields packet f.1 f.2
      else skip 1 number kind next >>= readFields packet draft
    split
    · cases readField packet draft number next <;> rfl
    · cases skip 1 number kind next <;> rfl

theorem readFields_close {c next : Cursor} (h : token c = .ok (.close, next)) (packet : Bytes)
    (draft : Draft) : readFields packet draft c = .ok (draft, next) := by
  rw [readFields_eq, h]
  rfl

theorem readFields_field {packet : Bytes} {draft further : Draft} {c next after : Cursor} {tag : Nat}
    (h : token c = .ok (.element tag tagKind, next))
    (hfield : readField packet draft tag next = .ok (further, after)) :
    readFields packet draft c = readFields packet further after := by
  simp only [readFields_eq packet draft c, h, hfield, bind, Except.bind, if_true]

/-- The bytes, in their place in the packet, are fields that change the draft by `f`. -/
def Takes (packet bs : Bytes) (f : Draft → Draft) : Prop :=
  ∀ draft pos rest, (⟨pos, bs ++ rest⟩ : Cursor).In packet →
    readFields packet draft ⟨pos, bs ++ rest⟩ = readFields packet (f draft) ⟨pos + bs.length, rest⟩

variable {packet : Bytes}

theorem Takes.append {as bs : Bytes} {f g : Draft → Draft} (hf : Takes packet as f)
    (hg : Takes packet bs g) : Takes packet (as ++ bs) (fun draft => g (f draft)) := by
  intro draft pos rest hin
  rw [List.append_assoc] at hin ⊢
  rw [hf draft pos (bs ++ rest) hin, hg _ _ rest hin.drop, List.length_append, Nat.add_assoc]

theorem takes_optional {γ : Type} {out : γ → Bytes} {f : γ → Draft → Draft} (value : Option γ)
    (h : ∀ c ∈ value, Takes packet (out c) (f c)) :
    Takes packet (value.elim [] out) (fun draft => value.elim draft fun c => f c draft) := by
  cases value with
  | none => exact fun _ _ _ _ => rfl
  | some c => exact h c rfl

/-- A tagged field is taken if its own reader takes it. -/
theorem takes_of_readField {tag : Nat} {body : Bytes} {f : Draft → Draft} (htag : tag < 2 ^ 53)
    (h : ∀ draft pos rest, (⟨pos, body ++ rest⟩ : Cursor).In packet →
      readField packet draft tag ⟨pos, body ++ rest⟩ = .ok (f draft, ⟨pos + body.length, rest⟩)) :
    Takes packet (headerBytes tag tagKind ++ body) f := by
  intro draft pos rest hin
  rw [List.append_assoc] at hin ⊢
  have hheader := @token_headerBytes tag tagKind htag (by decide) pos (body ++ rest)
  rw [readFields_field hheader (h draft _ rest hin.drop), List.length_append, Nat.add_assoc]

/-- The field of a name. -/
theorem takes_name {name read : Name} (h : name.reread = .ok read) (hsuite : name.suite = .ccnb)
    (hwires : ∀ wire ∈ name.wireComponents, wire.length < 2 ^ 53) :
    Takes packet (nameBytes name) (fun draft => { draft with name := some read }) := by
  apply takes_of_readField (by decide)
  intro draft pos rest hin
  rw [List.append_assoc, List.singleton_append] at hin ⊢
  rw [readField, if_pos rfl, readName_nameBytes h hsuite hwires hin, List.length_append,
    List.length_singleton, Nat.add_assoc]
  rfl

/-- Changes the details of a draft. -/
def Draft.update (f : CcnbDetails → CcnbDetails) (draft : Draft) : Draft :=
  { draft with details := f draft.details }

/-- Tags of fields that are neither the name nor the content nor the signed part. -/
def Simple (tag : Nat) : Prop :=
  tag ≠ nameTag ∧ tag ≠ signedInfoTag ∧ tag ≠ contentTag ∧ tag < 2 ^ 53

instance (tag : Nat) : Decidable (Simple tag) := inferInstanceAs (Decidable (_ ∧ _ ∧ _ ∧ _))

/-- A simple field goes into the details. -/
theorem takes_field {tag kind : Nat} (htag : Simple tag) (hkind : kind = blobKind ∨ kind = textKind)
    {data : Bytes} (hlength : data.length < 2 ^ 53) {f : CcnbDetails → CcnbDetails}
    (hf : ∀ d, withField d tag data = .ok (f d)) :
    Takes packet (fieldBytes tag kind data) (Draft.update f) := by
  obtain ⟨hname, hsigned, hcontent, hsmall⟩ := htag
  apply takes_of_readField hsmall
  intro draft pos rest hin
  obtain ⟨span, hvalue, hspan⟩ := value_dataBytes hkind hlength 1 hin
  rw [readField, if_neg hname, if_neg hsigned, hvalue]
  simp only [bind, Except.bind, if_neg hcontent, valueBytes, hspan, hf, pure, Except.pure,
    Draft.update]

/-! ## Packets -/

/-- The bytes of a packet around its fields. -/
def packetBytes (tag : Nat) (fields : Bytes) : Bytes := headerBytes tag tagKind ++ (fields ++ [0])

/-- A packet whose fields can be read is read as the draft of its fields. -/
theorem decode_packetBytes {tag : Nat} {fields : Bytes} {draft : Draft} {name : Name}
    (htag : tag = interestTag ∨ tag = contentObjectTag)
    (hfields : readFields (packetBytes tag fields) {}
        ⟨(headerBytes tag tagKind).length, fields ++ [0]⟩ =
      readFields (packetBytes tag fields) draft
        ⟨(headerBytes tag tagKind).length + fields.length, [0]⟩)
    (hname : draft.name = some name) :
    decode (packetBytes tag fields) =
      .ok (⟨packetBytes tag fields,
        .message (if tag = interestTag then .interest else .content) name draft.content,
        .ccnb draft.details⟩, (packetBytes tag fields).length) := by
  have hsmall : tag < 2 ^ 53 := by
    rcases htag with rfl | rfl <;> decide
  have hheader := @token_headerBytes tag tagKind hsmall (by decide) 0 (fields ++ [0])
  have hlength : (headerBytes tag tagKind).length + fields.length + 1 =
      (packetBytes tag fields).length := by
    simp only [packetBytes, List.length_append, List.length_singleton, Nat.add_assoc]
  rw [readFields_close (token_close _ []), hlength] at hfields
  have hopen : token (.ofBytes (packetBytes tag fields)) =
      .ok (.element tag tagKind, ⟨(headerBytes tag tagKind).length, fields ++ [0]⟩) := by
    rw [Cursor.ofBytes, packetBytes, hheader, Nat.zero_add]
  simp only [decode, hopen, bind, Except.bind]
  rcases htag with rfl | rfl
  · simp only [and_self, if_true, pure, Except.pure, hfields, hname, List.take_length]
  · have hother : contentObjectTag ≠ interestTag := by decide
    simp only [hother, false_and, if_false, and_self, if_true, pure, Except.pure, hfields, hname,
      List.take_length]

/-- The fields of a packet stand in their place behind its header. -/
theorem fields_in_packetBytes (tag : Nat) (fields : Bytes) :
    (⟨(headerBytes tag tagKind).length, fields ++ [0]⟩ : Cursor).In (packetBytes tag fields) :=
  ⟨headerBytes tag tagKind, [], (List.append_nil _).symm, rfl⟩

/-- A packet does not begin like an encoding switch. -/
theorem head?_packetBytes {tag : Nat} (htag : tag = interestTag ∨ tag = contentObjectTag)
    (fields : Bytes) : (packetBytes tag fields).head? ≠ some Switch.mark := by
  have hinterest : headerBytes interestTag tagKind = [0x01, 0xd2] := by
    simp [headerBytes, highBits, interestTag, tagKind]
  have hcontent : headerBytes contentObjectTag tagKind = [0x04, 0x82] := by
    simp [headerBytes, highBits, contentObjectTag, tagKind]
  rcases htag with rfl | rfl
  · simp [packetBytes, hinterest, Switch.mark]
  · simp [packetBytes, hcontent, Switch.mark]

theorem dropFrom_packetBytes {tag : Nat} (htag : tag = interestTag ∨ tag = contentObjectTag)
    (fields : Bytes) : Switch.dropFrom (packetBytes tag fields) = packetBytes tag fields :=
  Switch.dropFrom_of_head? (head?_packetBytes htag fields)

/-! ## Contents -/

theorem readSignedInfo_eq (packet : Bytes) (d : CcnbDetails) (c : Cursor) :
    readSignedInfo packet d c = token c >>= fun r =>
      match r.1 with
      | .close => .ok (d, r.2)
      | .element number kind =>
        if number = finalBlockTag ∧ kind = tagKind then
          value 2 r.2 >>= fun v => readSignedInfo packet
            { d with finalBlock := Component.chunk? .ccnb (valueBytes packet v.1) } v.2
        else if number = publisherKeyTag ∧ kind = tagKind then
          value 2 r.2 >>= fun v => readSignedInfo packet
            { d with publisherKey := some (valueBytes packet v.1) } v.2
        else
          skip 2 number kind r.2 >>= readSignedInfo packet d := by
  rw [readSignedInfo]
  split
  · rename_i h
    rw [h]
    rfl
  · rename_i h
    rw [h]
    rfl
  · rename_i number kind next h
    rw [h]
    change _ = if number = finalBlockTag ∧ kind = tagKind then
        value 2 next >>= fun v => readSignedInfo packet
          { d with finalBlock := Component.chunk? .ccnb (valueBytes packet v.1) } v.2
      else if number = publisherKeyTag ∧ kind = tagKind then
        value 2 next >>= fun v => readSignedInfo packet
          { d with publisherKey := some (valueBytes packet v.1) } v.2
      else skip 2 number kind next >>= readSignedInfo packet d
    split
    · cases value 2 next <;> rfl
    · split
      · cases value 2 next <;> rfl
      · cases skip 2 number kind next <;> rfl

theorem readSignedInfo_close {c next : Cursor} (h : token c = .ok (.close, next)) (packet : Bytes)
    (d : CcnbDetails) : readSignedInfo packet d c = .ok (d, next) := by
  rw [readSignedInfo_eq, h]
  rfl

theorem readSignedInfo_finalBlock {c next after : Cursor} {v : Option Span}
    (h : token c = .ok (.element finalBlockTag tagKind, next))
    (hvalue : value 2 next = .ok (v, after)) (packet : Bytes) (d : CcnbDetails) :
    readSignedInfo packet d c = readSignedInfo packet
      { d with finalBlock := Component.chunk? .ccnb (valueBytes packet v) } after := by
  simp only [readSignedInfo_eq packet d c, h, hvalue, bind, Except.bind, and_self, if_true]

/-- The component of the last chunk number. -/
def blockComponent (block : UInt32) : Bytes :=
  Component.chunkMark :: if block.toNat = 0 then [] else minimalBigEndian block.toNat

/-- The signed part with the last chunk number. -/
def finalBlockBytes (block : UInt32) : Bytes :=
  headerBytes signedInfoTag tagKind ++ (fieldBytes finalBlockTag blobKind (blockComponent block) ++ [0])

theorem puts_writeFinalBlock (block : UInt32) :
    Write.Puts (writeFinalBlock block) () (finalBlockBytes block) True := by
  have hall := (Write.puts_byte 0).andThen <|
    (puts_writeField finalBlockTag blobKind (blockComponent block)).andThen
      (puts_writeHeader signedInfoTag tagKind)
  refine hall.congr ?_ ?_
  · rw [finalBlockBytes, List.append_assoc]
  · simp

/-- The signed part says the last chunk number. -/
theorem takes_finalBlock (block : UInt32) :
    Takes packet (finalBlockBytes block)
      (Draft.update fun d => { d with finalBlock := some block }) := by
  have hlength : (blockComponent block).length < 2 ^ 53 := by
    have hdigits := length_minimalBigEndian_le block.toNat
    rw [blockComponent, List.length_cons]
    split
    · decide
    · omega
  have hchunk : Component.chunk? .ccnb (blockComponent block) = some block :=
    (@Component.chunk?_ofChunk .ccnb block _ rfl).2
  apply takes_of_readField (by decide)
  intro draft pos rest hin
  have hbytes : fieldBytes finalBlockTag blobKind (blockComponent block) ++ [0] ++ rest =
      headerBytes finalBlockTag tagKind ++ (dataBytes blobKind (blockComponent block) ++ 0 :: rest) := by
    simp [fieldBytes]
  rw [hbytes] at hin ⊢
  have hheader := @token_headerBytes finalBlockTag tagKind (by decide) (by decide) pos
    (dataBytes blobKind (blockComponent block) ++ 0 :: rest)
  obtain ⟨span, hvalue, hspan⟩ := value_dataBytes (.inl rfl) hlength 2 hin.drop
  rw [readField, if_neg (by decide), if_pos rfl, readSignedInfo_finalBlock hheader hvalue,
    readSignedInfo_close (token_close _ rest), valueBytes, hspan, hchunk]
  simp only [bind, Except.bind, pure, Except.pure, fieldBytes, List.length_append,
    List.length_singleton, Nat.add_assoc, Draft.update]

/-- The field of the content says where its payload stands. -/
theorem readFields_content {payload : Bytes} (hlength : payload.length < 2 ^ 53) (draft : Draft)
    {pos : Nat} {rest : Bytes}
    (hin : (⟨pos, fieldBytes contentTag blobKind payload ++ rest⟩ : Cursor).In packet) :
    ∃ span : Span, readFields packet draft ⟨pos, fieldBytes contentTag blobKind payload ++ rest⟩ =
      readFields packet { draft with content := some span }
        ⟨pos + (fieldBytes contentTag blobKind payload).length, rest⟩ ∧
      span.of packet = payload := by
  rw [fieldBytes, List.append_assoc] at hin ⊢
  have hheader := @token_headerBytes contentTag tagKind (by decide) (by decide) pos
    (dataBytes blobKind payload ++ rest)
  obtain ⟨span, hvalue, hspan⟩ := value_dataBytes (.inl rfl) hlength 1 hin.drop
  refine ⟨span, ?_, hspan⟩
  apply (readFields_field hheader _).trans
  · rw [List.length_append, ← Nat.add_assoc]
  · rw [readField, if_neg (by decide), if_neg (by decide), hvalue]
    rfl

/-- The fields of a content. -/
def contentBytes (name : Name) (payload : Bytes) (o : ContentOptions) : Bytes :=
  nameBytes name ++ (o.finalBlock.elim [] finalBlockBytes ++ fieldBytes contentTag blobKind payload)

/-- What comes of encoding a content. -/
theorem result_encodeContent (name : Name) (payload : Bytes) (o : ContentOptions) :
    Write.Result (packetBytes contentObjectTag (contentBytes name payload o)) True
      (Write.roomFor name payload.length) (encodeContent name payload o) := by
  have hall := (Write.puts_byte 0).andThen <|
    (puts_writeField contentTag blobKind payload).andThen <|
      (Write.puts_optional puts_writeFinalBlock o.finalBlock).andThen <|
        (puts_writeName name).andThen (puts_writeHeader contentObjectTag tagKind)
  exact (hall.congr (by simp [packetBytes, contentBytes]) (by simp)).result _

/-- What an encoded content consists of. -/
theorem encodeContent_eq_ok {name : Name} {payload bytes : Bytes} {o : ContentOptions}
    (h : encodeContent name payload o = .ok bytes) :
    bytes = packetBytes contentObjectTag (contentBytes name payload o) :=
  (((result_encodeContent name payload o).eq_ok_iff bytes).1 h).2.2

/-- A content is read as the content that it is, under the name that is read for its own. -/
theorem decode_content {name read : Name} (h : name.reread = .ok read) (hsuite : name.suite = .ccnb)
    (hwires : ∀ wire ∈ name.wireComponents, wire.length < 2 ^ 53) {payload bytes : Bytes}
    (hpayload : payload.length < 2 ^ 53) {o : ContentOptions}
    (hok : encodeContent name payload o = .ok bytes) :
    ∃ span : Span, decode (Switch.dropFrom bytes) = .ok (⟨bytes, .message .content read (some span),
      .ccnb { finalBlock := o.finalBlock }⟩, (Switch.dropFrom bytes).length) ∧
      span.of bytes = payload := by
  obtain rfl := encodeContent_eq_ok hok
  rw [dropFrom_packetBytes (.inr rfl)]
  let fields := nameBytes name ++ o.finalBlock.elim [] finalBlockBytes
  let start := (headerBytes contentObjectTag tagKind).length
  have hsplit : contentBytes name payload o ++ [0] =
      fields ++ (fieldBytes contentTag blobKind payload ++ [0]) := by
    simp [contentBytes, fields]
  have hin := fields_in_packetBytes contentObjectTag (contentBytes name payload o)
  rw [hsplit] at hin
  have htakes := (takes_name h hsuite hwires).append
    (takes_optional o.finalBlock fun block _ => takes_finalBlock block) {} start _ hin
  obtain ⟨span, hcontent, hspan⟩ := readFields_content hpayload
    ⟨some read, none, { finalBlock := o.finalBlock }⟩ hin.drop
  have hdraft : (o.finalBlock.elim { name := some read } fun block =>
      { name := some read, details := { finalBlock := some block } } : Draft) =
        ⟨some read, none, { finalBlock := o.finalBlock }⟩ := by
    cases o.finalBlock <;> rfl
  have hfields : readFields (packetBytes contentObjectTag (contentBytes name payload o)) {}
      ⟨start, contentBytes name payload o ++ [0]⟩ =
        readFields (packetBytes contentObjectTag (contentBytes name payload o))
          ⟨some read, some span, { finalBlock := o.finalBlock }⟩
            ⟨start + (contentBytes name payload o).length, [0]⟩ := by
    rw [hsplit]
    refine htakes.trans ?_
    dsimp only [Draft.update]
    rw [hdraft]
    refine hcontent.trans ?_
    simp only [contentBytes, fields, start, List.length_append, Nat.add_assoc]
  exact ⟨span, decode_packetBytes (.inr rfl) hfields rfl, hspan⟩

/-- An encoded content is read as the content that it is. -/
theorem decode_encodeContent {name : Name} (h : name.Restorable) (hsuite : name.suite = .ccnb)
    (hwires : ∀ wire ∈ name.wireComponents, wire.length < 2 ^ 53) {payload bytes : Bytes}
    (hpayload : payload.length < 2 ^ 53) {o : ContentOptions}
    (hok : encodeContent name payload o = .ok bytes) :
    ∃ span : Span, decode (Switch.dropFrom bytes) = .ok (⟨bytes, .message .content name (some span),
      .ccnb { finalBlock := o.finalBlock }⟩, (Switch.dropFrom bytes).length) ∧
      span.of bytes = payload := decode_content h.reread_eq hsuite hwires hpayload hok

/-! ## Interests -/

/-- What the text of a scope is read as. -/
theorem scopeOf_decimalBytes (n : UInt8) :
    scopeOf (some 3) (decimalBytes n.toNat) =
      if n ≤ 2 then some n else if n ≤ 9 then none else some 3 := by
  by_cases hn : n.toNat < 10
  · have hdigit := toNat_digit hn
    rw [decimalBytes_of_lt hn, scopeOf]
    generalize UInt8.ofNat (Nat.digitChar n.toNat).toNat = b at hdigit
    have hsmall : (0x30 ≤ b ∧ b ≤ 0x32) ↔ n ≤ 2 := by
      simp only [UInt8.le_iff_toNat_le, hdigit, UInt8.reduceToNat]
      omega
    have hnine : n ≤ 9 := UInt8.le_iff_toNat_le.2 (Nat.le_of_lt_succ hn)
    have hsub : b - 0x30 = n := by
      apply UInt8.toNat_inj.1
      rw [UInt8.toNat_sub, hdigit]
      simp only [UInt8.reduceToNat]
      have hlt := n.toNat_lt
      omega
    simp only [hsmall, hsub, hnine, if_true]
  · have hmany : ¬n ≤ 9 := by
      intro hle
      exact hn (Nat.lt_succ_of_le (UInt8.le_iff_toNat_le.1 hle))
    have hmore : ¬n ≤ 2 := by
      intro hle
      exact hmany (UInt8.le_trans hle (by decide))
    rw [if_neg hmore, if_neg hmany, decimalBytes_of_le (Nat.le_of_not_lt hn)]
    cases hhigh : decimalBytes (n.toNat / 10) with
    | nil => simp [decimalBytes] at hhigh
    | cons b rest =>
      cases rest <;> rfl

/-- The fields of an interest behind its name. -/
def selectorBytes (o : InterestOptions) : Bytes :=
  o.minSuffix.elim [] (fun n => fieldBytes minSuffixTag textKind (decimalBytes n.toNat)) ++
    (o.maxSuffix.elim [] (fun n => fieldBytes maxSuffixTag textKind (decimalBytes n.toNat)) ++
      (o.publisherKey.elim [] (fieldBytes publisherKeyTag blobKind) ++
        (o.scope.elim [] (fun n => fieldBytes scopeTag textKind (decimalBytes n.toNat)) ++
          o.nonce.elim [] (fieldBytes nonceTag blobKind))))

/-- What comes of encoding an interest. -/
theorem result_encodeInterest (name : Name) (o : InterestOptions) :
    Write.Result (packetBytes interestTag (nameBytes name ++ selectorBytes o)) True
      (Write.roomFor name 0) (encodeInterest name o) := by
  have hscope := fun n : UInt8 => puts_writeField scopeTag textKind (decimalBytes n.toNat)
  have hmax := fun n : UInt64 => puts_writeField maxSuffixTag textKind (decimalBytes n.toNat)
  have hmin := fun n : UInt64 => puts_writeField minSuffixTag textKind (decimalBytes n.toNat)
  have hall := (Write.puts_byte 0).andThen <|
    (Write.puts_optional (puts_writeField nonceTag blobKind) o.nonce).andThen <|
      (Write.puts_optional hscope o.scope).andThen <|
        (Write.puts_optional (puts_writeField publisherKeyTag blobKind) o.publisherKey).andThen <|
          (Write.puts_optional hmax o.maxSuffix).andThen <|
            (Write.puts_optional hmin o.minSuffix).andThen <|
              (puts_writeName name).andThen (puts_writeHeader interestTag tagKind)
  exact (hall.congr (by simp [packetBytes, selectorBytes]) (by simp)).result _

/-- What an encoded interest consists of. -/
theorem encodeInterest_eq_ok_iff (name : Name) (bytes : Bytes) (o : InterestOptions) :
    encodeInterest name o = .ok bytes ↔
      (packetBytes interestTag (nameBytes name ++ selectorBytes o)).length ≤ Write.roomFor name 0 ∧
        bytes = packetBytes interestTag (nameBytes name ++ selectorBytes o) := by
  rw [(result_encodeInterest name o).eq_ok_iff, true_and]

/-- The details of an encoded interest. -/
def interestDetails (o : InterestOptions) : CcnbDetails where
  minSuffix := o.minSuffix.getD 0
  maxSuffix := o.maxSuffix.getD 64
  scope := o.scope.elim (some 3) fun n => if n ≤ 2 then some n else if n ≤ 9 then none else some 3
  nonce := o.nonce
  publisherKey := o.publisherKey

theorem length_decimalBytes_lt (n : UInt64) : (decimalBytes n.toNat).length < 2 ^ 53 := by
  have hlt : n.toNat < 10 ^ 20 := Nat.lt_trans n.toNat_lt (by decide)
  exact Nat.lt_of_le_of_lt (length_decimalBytes_le (by decide) hlt) (by decide)

theorem takes_minSuffix (n : UInt64) :
    Takes packet (fieldBytes minSuffixTag textKind (decimalBytes n.toNat))
      (Draft.update fun d => { d with minSuffix := n }) := by
  apply takes_field (by decide) (.inr rfl) (length_decimalBytes_lt n)
  intro d
  rw [withField, if_neg (by decide), if_neg (by decide), if_pos rfl, decimal?_decimalBytes]
  rfl

theorem takes_maxSuffix (n : UInt64) :
    Takes packet (fieldBytes maxSuffixTag textKind (decimalBytes n.toNat))
      (Draft.update fun d => { d with maxSuffix := n }) := by
  apply takes_field (by decide) (.inr rfl) (length_decimalBytes_lt n)
  intro d
  rw [withField, if_neg (by decide), if_neg (by decide), if_neg (by decide), if_pos rfl,
    decimal?_decimalBytes]
  rfl

theorem takes_publisherKey {key : Bytes} (h : key.length < 2 ^ 53) :
    Takes packet (fieldBytes publisherKeyTag blobKind key)
      (Draft.update fun d => { d with publisherKey := d.publisherKey <|> some key }) := by
  apply takes_field (by decide) (.inl rfl) h
  exact fun _ => rfl

theorem takes_scope (n : UInt8) :
    Takes packet (fieldBytes scopeTag textKind (decimalBytes n.toNat))
      (Draft.update fun d => { d with scope := scopeOf d.scope (decimalBytes n.toNat) }) := by
  have hlength := length_decimalBytes_lt n.toUInt64
  rw [UInt8.toNat_toUInt64] at hlength
  apply takes_field (by decide) (.inr rfl) hlength
  exact fun _ => rfl

theorem takes_nonce {nonce : Bytes} (h : nonce.length < 2 ^ 53) :
    Takes packet (fieldBytes nonceTag blobKind nonce)
      (Draft.update fun d => { d with nonce := d.nonce <|> some nonce }) := by
  apply takes_field (by decide) (.inl rfl) h
  exact fun _ => rfl

/-- The fields of an interest say what was asked for. -/
theorem takes_interest {name read : Name} (h : name.reread = .ok read) (hsuite : name.suite = .ccnb)
    (hwires : ∀ wire ∈ name.wireComponents, wire.length < 2 ^ 53) {o : InterestOptions}
    (hnonce : ∀ v ∈ o.nonce, v.length < 2 ^ 53)
    (hkey : ∀ v ∈ o.publisherKey, v.length < 2 ^ 53) {pos : Nat} {rest : Bytes}
    (hin : (⟨pos, nameBytes name ++ selectorBytes o ++ rest⟩ : Cursor).In packet) :
    readFields packet {} ⟨pos, nameBytes name ++ selectorBytes o ++ rest⟩ =
      readFields packet ⟨some read, none, interestDetails o⟩
        ⟨pos + (nameBytes name ++ selectorBytes o).length, rest⟩ := by
  have htakes := (@takes_name packet name read h hsuite hwires).append <|
    (takes_optional o.minSuffix fun n _ => takes_minSuffix n).append <|
      (takes_optional o.maxSuffix fun n _ => takes_maxSuffix n).append <|
        (takes_optional o.publisherKey fun v hv => takes_publisherKey (hkey v hv)).append <|
          (takes_optional o.scope fun n _ => takes_scope n).append <|
            takes_optional o.nonce fun v hv => takes_nonce (hnonce v hv)
  refine (htakes {} pos rest hin).trans ?_
  congr 1
  rw [interestDetails]
  cases o.minSuffix <;> cases o.maxSuffix <;> cases o.publisherKey <;> cases hs : o.scope <;>
    cases o.nonce <;> simp [Draft.update, scopeOf_decimalBytes]

/-- An interest is read as the interest that it is, under the name that is read for its own. -/
theorem decode_interest {name read : Name} (h : name.reread = .ok read) (hsuite : name.suite = .ccnb)
    (hwires : ∀ wire ∈ name.wireComponents, wire.length < 2 ^ 53) {o : InterestOptions}
    (hnonce : ∀ v ∈ o.nonce, v.length < 2 ^ 53) (hkey : ∀ v ∈ o.publisherKey, v.length < 2 ^ 53) :
    decode (packetBytes interestTag (nameBytes name ++ selectorBytes o)) =
      .ok (⟨packetBytes interestTag (nameBytes name ++ selectorBytes o),
        .message .interest read none, .ccnb (interestDetails o)⟩,
        (packetBytes interestTag (nameBytes name ++ selectorBytes o)).length) := by
  have hin := fields_in_packetBytes interestTag (nameBytes name ++ selectorBytes o)
  exact decode_packetBytes (.inl rfl) (takes_interest h hsuite hwires hnonce hkey hin) rfl

/-- An encoded interest is read under the name that is read for its own. -/
theorem decode_encodeInterest_reread {name read : Name} (h : name.reread = .ok read)
    (hsuite : name.suite = .ccnb) (hsize : name.size ≤ maxComponents)
    (hwires : ∀ wire ∈ name.wireComponents, wire.length < 2 ^ 53) {bytes : Bytes}
    {o : InterestOptions} (hok : encodeInterest name o = .ok bytes) :
    decode (Switch.dropFrom bytes) = .ok (⟨bytes, .message .interest read none,
      .ccnb (interestDetails o)⟩, (Switch.dropFrom bytes).length) := by
  obtain ⟨hle, rfl⟩ := (encodeInterest_eq_ok_iff name bytes o).1 hok
  rw [dropFrom_packetBytes (.inl rfl)]
  have hselectors : (selectorBytes o).length < 2 ^ 53 := by
    have hroom := roomFor_le name 0
    have hcount : name.components.length ≤ maxComponents := hsize
    simp only [packetBytes, List.length_append, Write.flatAllowance, Write.componentAllowance,
      maxComponents] at hle hroom hcount
    omega
  have hnonce : ∀ v ∈ o.nonce, v.length < 2 ^ 53 := by
    intro v hv
    have hfield := length_le_fieldBytes nonceTag blobKind v
    simp only [selectorBytes, Option.mem_def.1 hv, Option.elim_some, List.length_append] at hselectors
    omega
  have hkey : ∀ v ∈ o.publisherKey, v.length < 2 ^ 53 := by
    intro v hv
    have hfield := length_le_fieldBytes publisherKeyTag blobKind v
    simp only [selectorBytes, Option.mem_def.1 hv, Option.elim_some, List.length_append] at hselectors
    omega
  exact decode_interest h hsuite hwires hnonce hkey

/-- An encoded interest is read as the interest that it is. -/
theorem decode_encodeInterest {name : Name} (h : name.Restorable) (hsuite : name.suite = .ccnb)
    (hwires : ∀ wire ∈ name.wireComponents, wire.length < 2 ^ 53) {bytes : Bytes}
    {o : InterestOptions} (hok : encodeInterest name o = .ok bytes) :
    decode (Switch.dropFrom bytes) = .ok (⟨bytes, .message .interest name none,
      .ccnb (interestDetails o)⟩, (Switch.dropFrom bytes).length) :=
  decode_encodeInterest_reread h.reread_eq hsuite h.length_components_le hwires hok

end NameRelay.Ccnb
