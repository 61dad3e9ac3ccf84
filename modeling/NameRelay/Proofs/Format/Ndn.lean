-- SUMMARY: NDN packets read back as what was written.
import NameRelay.Format.Ndn
import NameRelay.Proofs.Name.Restoring
import NameRelay.Proofs.Wire.Headers

/-!
# NDN packets read back

The writers are described by the elements that they write: `contentItems` and `interestItems` list
the fields of a packet in the order of their bytes. Reading folds over the same lists, so what is
left to show is what each field does to the draft.
-/

namespace NameRelay.Ndn

open Tlv (Form)

/-! ## Names -/

/-- The elements in a name. -/
def nameItems (name : Name) : List (Nat × Bytes) :=
  name.wireComponents.map fun wire => (componentType, wire)

/-- The element of a name. -/
def nameItem (name : Name) : Nat × Bytes := (nameType, Form.flexible.elements (nameItems name))

theorem puts_writeElement (type : Nat) {inner : Write Unit} {bs : Bytes}
    (h : Write.Puts inner () bs True) :
    Write.Puts (writeElement type inner) () (Form.flexible.element type bs) True :=
  (Form.flexible.puts_element type h).congr rfl (and_self_iff)

theorem puts_writeNumber (type n : Nat) :
    Write.Puts (writeNumber type n) () (Form.flexible.element type (nonNegativeBytes n)) True :=
  puts_writeElement type (Write.puts_nonNegative n)

theorem puts_writeName (name : Name) :
    Write.Puts (writeName name) () (Form.flexible.elements [nameItem name]) True := by
  have hcomponents := Write.puts_components
    (fun wire => puts_writeElement componentType (Write.puts_bytes wire)) name
  refine (puts_writeElement nameType hcomponents).congr ?_ Iff.rfl
  rw [Form.elements_cons, Form.elements_nil, List.append_nil, nameItem, nameItems, Form.elements,
    List.flatMap_map]

theorem readable_nameItems {name : Name}
    (h : (Form.flexible.elements (nameItems name)).length < Form.flexible.limit) :
    Form.flexible.Readable (nameItems name) := by
  apply Form.readable_of_length _ _ h
  intro i hi
  obtain ⟨wire, -, rfl⟩ := List.mem_map.1 hi
  simp [componentType, Form.flexible]

theorem readName_elements {name : Name} (hsuite : name.suite = .ndn)
    (hlength : (Form.flexible.elements (nameItems name)).length < Form.flexible.limit) (pos : Nat) :
    readName ⟨pos, Form.flexible.elements (nameItems name)⟩ = name.reread := by
  rw [readName, ← hsuite]
  exact Name.read_elements (fun _ _ _ _ => rfl) (readable_nameItems hlength) pos

/-! ## Fields -/

/-- A number reads back as the word that it is. -/
theorem word_place (pos type : Nat) (n : UInt64) :
    (Form.flexible.place pos type (nonNegativeBytes n.toNat)).word = .ok n := by
  rw [Tlv.Element.word, Form.place, word?_nonNegativeBytes]

theorem readField_name {name : Name} (hsuite : name.suite = .ndn)
    (hlength : (Form.flexible.elements (nameItems name)).length < Form.flexible.limit)
    (draft : Draft) (pos : Nat) :
    readField draft (Form.flexible.place pos nameType (Form.flexible.elements (nameItems name))) =
      name.reread.map fun read => { draft with name := some read } := by
  have hread := readName_elements hsuite hlength
    (pos + (Form.flexible.bytes nameType (Form.flexible.elements (nameItems name)).length).length)
  rw [readField, Form.place_type, if_pos rfl, Form.place]
  dsimp only
  rw [hread]
  cases name.reread <;> rfl

/-- A packet of fields that can be read is read as the draft of its fields, if its name is read. -/
theorem decode_fields {type : Nat} {items : List (Nat × Bytes)} {read : Except DecodeError Name}
    {draft : Name → Draft} (htype : type = interestType ∨ type = dataType)
    (hreadable : Form.flexible.Readable items)
    (hlength : (Form.flexible.elements items).length < Form.flexible.limit)
    (hfields : (Form.flexible.places (Form.flexible.bytes type
      (Form.flexible.elements items).length).length items).foldlM readField {} = read.map draft)
    (hname : ∀ name, (draft name).name = some name) :
    decode (Form.flexible.element type (Form.flexible.elements items)) = read.map fun name =>
      (⟨Form.flexible.element type (Form.flexible.elements items),
        .message (if type = interestType then .interest else .content) name (draft name).content,
        .ndn (draft name).details⟩,
        (Form.flexible.element type (Form.flexible.elements items)).length) := by
  have hsmall : type < Form.flexible.limit := by
    rcases htype with rfl | rfl <;> simp [interestType, dataType, Form.flexible]
  have hlink : type ≠ linkType := by
    rcases htype with rfl | rfl <;> decide
  have helement := Form.flexible.read_element hsmall hlength 0 []
  rw [List.append_nil] at helement
  have hfold := Form.flexible.foldM_elements hreadable
    (Form.flexible.bytes type (Form.flexible.elements items).length).length {} readField
  rw [hfields] at hfold
  have hhead : Form.flexible.head = Tlv.Head.flexible := rfl
  rw [hhead] at helement hfold
  cases read <;>
    simp only [decode, Cursor.ofBytes, helement, bind, Except.bind, Form.place, Nat.zero_add, hlink,
      if_false, htype, if_true, hfold, Except.map, hname, pure, Except.pure, List.take_length]

/-- A packet does not begin like an encoding switch. -/
theorem head?_element {type : Nat} (htype : type = interestType ∨ type = dataType) (value : Bytes) :
    (Form.flexible.element type value).head? ≠ some Switch.mark := by
  rcases htype with rfl | rfl
  · intro hmark
    cases hmark
  · intro hmark
    cases hmark

theorem dropFrom_element {type : Nat} (htype : type = interestType ∨ type = dataType)
    (value : Bytes) :
    Switch.dropFrom (Form.flexible.element type value) = Form.flexible.element type value :=
  Switch.dropFrom_of_head? (head?_element htype value)

/-! ## Contents -/

/-- The element of the last block. -/
def finalBlockBytes (block : UInt32) : Bytes :=
  Form.flexible.element componentType (blockMark :: nonNegativeBytes block.toNat)

/-- The elements in the meta information of a content. -/
def metaItems (o : ContentOptions) : List (Nat × Bytes) :=
  Form.optional freshnessType (fun n : UInt64 => nonNegativeBytes n.toNat) o.freshness ++
    Form.optional finalBlockType finalBlockBytes o.finalBlock

/-- The fields of a content. -/
def contentItems (name : Name) (payload : Bytes) (o : ContentOptions) : List (Nat × Bytes) :=
  [nameItem name, (metaInfoType, Form.flexible.elements (metaItems o)), (payloadType, payload),
    (signatureInfoType, Form.flexible.element signatureKindType (nonNegativeBytes digestSignature)),
    (signatureValueType, [])]

theorem finalBlockComponent_eq (block : UInt32) :
    finalBlockComponent block = .ok (blockMark :: nonNegativeBytes block.toNat) := by
  have hputs := (Write.puts_nonNegative block.toNat).andThen (Write.puts_byte blockMark)
  apply (hputs.toBytes_eq_ok_iff finalBlockRoom _).2
  refine ⟨⟨trivial, trivial⟩, ?_, rfl⟩
  have hlt : block.toNat < 0x100000000 := block.toNat_lt
  have hlength : (nonNegativeBytes block.toNat).length ≤ 4 := by
    unfold nonNegativeBytes
    repeat' split
    all_goals exact Nat.le_trans (Nat.le_of_eq (length_bigEndian _ _)) (by omega)
  simp only [List.singleton_append, List.length_cons, finalBlockRoom]
  omega

theorem puts_writeMetaInfo (o : ContentOptions) :
    Write.Puts (writeMetaInfo o) () (Form.flexible.elements (metaItems o)) True := by
  have hwrite : writeMetaInfo o = (do
      Write.optional o.finalBlock fun block => writeElement finalBlockType
        (writeElement componentType (Write.bytes (blockMark :: nonNegativeBytes block.toNat)))
      Write.optional o.freshness fun n => writeNumber freshnessType n.toNat) := by
    simp only [writeMetaInfo, finalBlockComponent_eq]
  have hblock := fun block : UInt32 => puts_writeElement finalBlockType (puts_writeElement
    componentType (Write.puts_bytes (blockMark :: nonNegativeBytes block.toNat)))
  have hfreshness := fun n : UInt64 => puts_writeNumber freshnessType n.toNat
  rw [hwrite]
  refine ((Write.puts_optional hblock o.finalBlock).andThen
    (Write.puts_optional hfreshness o.freshness)).congr ?_ (and_self_iff)
  rw [metaItems, Form.elements_append, Form.elements_optional, Form.elements_optional]
  rfl

/-- What comes of encoding a content. -/
theorem result_encodeContent (name : Name) (payload : Bytes) (o : ContentOptions) :
    Write.Result
      (Form.flexible.element dataType (Form.flexible.elements (contentItems name payload o))) True
      (Write.roomFor name payload.length) (encodeContent name payload o) := by
  have hsignature := puts_writeElement signatureInfoType
    (puts_writeNumber signatureKindType digestSignature)
  have hfields := (Form.puts_writeHead signatureValueType 0).andThen <| hsignature.andThen <|
    (puts_writeElement payloadType (Write.puts_bytes payload)).andThen <|
      (puts_writeElement metaInfoType (puts_writeMetaInfo o)).andThen (puts_writeName name)
  have hitems : Write.Puts _ () (Form.flexible.elements (contentItems name payload o)) True :=
    hfields.congr (by simp [contentItems, Form.element, Form.flexible]) (by simp)
  exact (puts_writeElement dataType hitems).result _

/-- What an encoded content consists of. -/
theorem encodeContent_eq_ok {name : Name} {payload bytes : Bytes} {o : ContentOptions}
    (h : encodeContent name payload o = .ok bytes) :
    bytes = Form.flexible.element dataType (Form.flexible.elements (contentItems name payload o)) ∧
      bytes.length ≤ Write.roomFor name payload.length := by
  obtain ⟨-, hroom, rfl⟩ := ((result_encodeContent name payload o).eq_ok_iff bytes).1 h
  exact ⟨rfl, hroom⟩

theorem readFinalBlock_bytes (d : NdnDetails) (block : UInt32) (pos : Nat) :
    readFinalBlock d ⟨pos, finalBlockBytes block⟩ = .ok { d with finalBlock := some block } := by
  have hlength := length_nonNegativeBytes_le block.toNat
  have hshort : (blockMark :: nonNegativeBytes block.toNat).length < Form.flexible.limit := by
    simp only [List.length_cons, Form.flexible]
    omega
  have hsmall : componentType < Form.flexible.limit := by simp [componentType, Form.flexible]
  have helement := Form.flexible.read_element hsmall hshort pos []
  rw [List.append_nil] at helement
  have hword : (nonNegativeBytes block.toNat).word? = some block.toUInt64 :=
    word?_of_word32 hlength (value_nonNegativeBytes (by have := block.toNat_lt; omega))
  have hhead : Form.flexible.head = Tlv.Head.flexible := rfl
  rw [hhead] at helement
  simp only [readFinalBlock, finalBlockBytes, helement, bind, Except.bind, Form.place, hword,
    and_self, if_true, pure, Except.pure, UInt32.toNat_toUInt64, word32?_toNat]

/-- The meta information says what was asked for. -/
theorem foldM_metaItems (o : ContentOptions)
    (hlength : (Form.flexible.elements (metaItems o)).length < Form.flexible.limit) (pos : Nat) :
    (Tlv.Head.flexible.elements ⟨pos, Form.flexible.elements (metaItems o)⟩).foldM {} readMetaInfo =
      .ok { freshness := o.freshness, finalBlock := o.finalBlock } := by
  have hreadable : Form.flexible.Readable (metaItems o) := by
    apply Form.readable_of_length _ _ hlength
    intro i hi
    rcases List.mem_append.1 hi with hfreshness | hblock
    · rw [Form.mem_optional hfreshness]
      simp [freshnessType, Form.flexible]
    · rw [Form.mem_optional hblock]
      simp [finalBlockType, Form.flexible]
  have hfreshness : ∀ (d : NdnDetails) (n : UInt64) (pos : Nat),
      readMetaInfo d (Form.flexible.place pos freshnessType (nonNegativeBytes n.toNat)) =
        .ok { d with freshness := some n } := by
    intro d n pos
    rw [readMetaInfo, Form.place_type, if_neg (by decide), if_pos rfl, word_place]
    rfl
  have hblock : ∀ (d : NdnDetails) (block : UInt32) (pos : Nat),
      readMetaInfo d (Form.flexible.place pos finalBlockType (finalBlockBytes block)) =
        .ok { d with finalBlock := some block } :=
    fun d block pos => readFinalBlock_bytes d block _
  have hfold := Form.flexible.foldM_elements hreadable pos {} readMetaInfo
  rw [metaItems, Form.foldlM_places_append,
    Form.foldlM_optional _ (fun d n => { d with freshness := some n }) hfreshness] at hfold
  simp only [bind, Except.bind] at hfold
  rw [Form.foldlM_optional _ (fun d block => { d with finalBlock := some block })
    hblock] at hfold
  refine hfold.trans ?_
  cases o.freshness <;> cases o.finalBlock <;> rfl

theorem readField_metaInfo (o : ContentOptions)
    (hlength : (Form.flexible.elements (metaItems o)).length < Form.flexible.limit)
    (name : Option Name) (content : Option Span) (pos : Nat) :
    readField ⟨name, content, {}⟩
      (Form.flexible.place pos metaInfoType (Form.flexible.elements (metaItems o))) =
        .ok ⟨name, content, { freshness := o.freshness, finalBlock := o.finalBlock }⟩ := by
  have hfold := foldM_metaItems o hlength (pos + (Form.flexible.bytes metaInfoType
    (Form.flexible.elements (metaItems o)).length).length)
  rw [readField, Form.place_type, if_neg (by decide), if_neg (by decide), if_neg (by decide),
    if_neg (by decide), if_neg (by decide), if_pos rfl, Form.place]
  dsimp only
  rw [hfold]
  rfl

theorem readField_payload (draft : Draft) (payload : Bytes) (pos : Nat) :
    readField draft (Form.flexible.place pos payloadType payload) =
      .ok { draft with content := some (Form.flexible.place pos payloadType payload).value.span } := by
  rw [readField, Form.place_type]
  rfl

/-- A signature says nothing. -/
theorem readField_signature (draft : Draft) {type : Nat}
    (htype : type = signatureInfoType ∨ type = signatureValueType) (value : Bytes) (pos : Nat) :
    readField draft (Form.flexible.place pos type value) = .ok draft := by
  rw [readField, Form.place_type]
  rcases htype with rfl | rfl <;> rfl

/-- A content is read as the content that it is, if its name is read. -/
theorem decode_content {name : Name} (hsuite : name.suite = .ndn) {payload : Bytes}
    {o : ContentOptions}
    (hall : (Form.flexible.elements (contentItems name payload o)).length < Form.flexible.limit) :
    ∃ span : Span,
      decode (Form.flexible.element dataType (Form.flexible.elements (contentItems name payload o))) =
        (name.reread.map fun read =>
          (⟨Form.flexible.element dataType (Form.flexible.elements (contentItems name payload o)),
            .message .content read (some span),
            .ndn { freshness := o.freshness, finalBlock := o.finalBlock }⟩,
            (Form.flexible.element dataType
              (Form.flexible.elements (contentItems name payload o))).length)) ∧
      span.of (Form.flexible.element dataType
        (Form.flexible.elements (contentItems name payload o))) = payload := by
  have hpart : ∀ i ∈ contentItems name payload o, i.2.length < Form.flexible.limit :=
    fun i hi => Nat.lt_of_le_of_lt (Form.length_le_elements _ hi) hall
  have hreadable : Form.flexible.Readable (contentItems name payload o) := by
    apply Form.readable_of_length _ _ hall
    simp [contentItems, nameItem, Form.flexible, nameType, metaInfoType, payloadType,
      signatureInfoType, signatureValueType]
  have hname := readField_name hsuite (hpart (nameItem name) List.mem_cons_self)
  have hmeta := readField_metaInfo o (hpart (metaInfoType, Form.flexible.elements (metaItems o))
    (by simp [contentItems]))
  let head := Form.flexible.bytes dataType
    (Form.flexible.elements (contentItems name payload o)).length
  let place := Form.flexible.place (head.length + (Form.flexible.element nameType
      (Form.flexible.elements (nameItems name))).length + (Form.flexible.element metaInfoType
        (Form.flexible.elements (metaItems o))).length) payloadType payload
  have hfields : (Form.flexible.places head.length (contentItems name payload o)).foldlM readField
      {} = name.reread.map fun read => ⟨some read, some place.value.span,
        { freshness := o.freshness, finalBlock := o.finalBlock }⟩ := by
    simp only [contentItems, nameItem, Form.foldlM_places_cons, hname]
    cases name.reread with
    | error e => rfl
    | ok read =>
      simp only [Except.map, hmeta, readField_payload, readField_signature _ (.inl rfl),
        readField_signature _ (.inr rfl), bind, Except.bind]
      rfl
  have hplace : place ∈ Form.flexible.places head.length (contentItems name payload o) := by
    simp [contentItems, nameItem, Form.places, place]
  have hin : place.value.In (Form.flexible.element dataType
      (Form.flexible.elements (contentItems name payload o))) :=
    Form.value_in_of_mem_places _ (Form.value_in_element _ dataType _) hplace
  exact ⟨place.value.span, decode_fields (.inr rfl) hreadable hall hfields fun _ => rfl,
    Cursor.span_of hin⟩

/-- An encoded content is read as the content that it is, if its name is reread. -/
theorem decode_encodeContent_reread {name : Name} (hsuite : name.suite = .ndn)
    {payload bytes : Bytes} {o : ContentOptions}
    (hroom : Write.roomFor name payload.length < 2 ^ 60)
    (hok : encodeContent name payload o = .ok bytes) :
    ∃ span : Span, decode (Switch.dropFrom bytes) = (name.reread.map fun read =>
      (⟨bytes, .message .content read (some span),
        .ndn { freshness := o.freshness, finalBlock := o.finalBlock }⟩,
        (Switch.dropFrom bytes).length)) ∧ span.of bytes = payload := by
  obtain ⟨rfl, hle⟩ := encodeContent_eq_ok hok
  have hall : (Form.flexible.elements (contentItems name payload o)).length <
      Form.flexible.limit := by
    rw [Form.length_element] at hle
    simp only [Form.flexible] at hle ⊢
    omega
  rw [dropFrom_element (.inr rfl)]
  exact decode_content hsuite hall

/-- An encoded content is read as the content that it is. -/
theorem decode_encodeContent {name : Name} (h : name.Restorable) (hsuite : name.suite = .ndn)
    {payload bytes : Bytes} {o : ContentOptions}
    (hroom : Write.roomFor name payload.length < 2 ^ 60)
    (hok : encodeContent name payload o = .ok bytes) :
    ∃ span : Span, decode (Switch.dropFrom bytes) = .ok (⟨bytes, .message .content name (some span),
      .ndn { freshness := o.freshness, finalBlock := o.finalBlock }⟩,
      (Switch.dropFrom bytes).length) ∧ span.of bytes = payload := by
  have hread := decode_encodeContent_reread hsuite hroom hok
  rwa [h.reread_eq] at hread

/-! ## Interests -/

/-- The selectors of an interest. -/
def selectorItems (o : InterestOptions) : List (Nat × Bytes) :=
  Form.optional minSuffixType (fun n : UInt64 => nonNegativeBytes n.toNat) o.minSuffix ++
    (Form.optional maxSuffixType (fun n : UInt64 => nonNegativeBytes n.toNat) o.maxSuffix ++
      Form.optional mustBeFreshType (fun _ : Unit => []) (if o.mustBeFresh then some () else none))

/-- The field of selectors, if there are any. -/
def selectorsItems (o : InterestOptions) : List (Nat × Bytes) :=
  if (Form.flexible.elements (selectorItems o)).length > 0 then
    [(selectorsType, Form.flexible.elements (selectorItems o))]
  else
    []

/-- The scope that is written. -/
def writtenScope (o : InterestOptions) : Option UInt8 := o.scope.filter (· ≤ 2)

/-- The fields for how long and how far an interest asks. -/
def travelItems (o : InterestOptions) : List (Nat × Bytes) :=
  Form.optional lifetimeType (fun n : UInt64 => nonNegativeBytes n.toNat) o.lifetime ++
    Form.optional scopeType (fun n : UInt8 => nonNegativeBytes n.toNat) (writtenScope o)

/-- The fields of an interest. -/
def interestItems (name : Name) (o : InterestOptions) : List (Nat × Bytes) :=
  nameItem name :: (selectorsItems o ++
    (nonceType, o.nonce.getD (derivedNonce name o)) :: travelItems o)

theorem puts_writeSelectors (o : InterestOptions) :
    Write.Puts (writeSelectors o) () (Form.flexible.elements (selectorItems o)) True := by
  have hmin := fun n : UInt64 => puts_writeNumber minSuffixType n.toNat
  have hmax := fun n : UInt64 => puts_writeNumber maxSuffixType n.toNat
  have hall := Write.Puts.andThenIf (o.mustBeFresh = true) (Form.puts_writeHead mustBeFreshType 0)
    ((Write.puts_optional hmax o.maxSuffix).andThen (Write.puts_optional hmin o.minSuffix))
  refine Write.Puts.congr hall ?_ (and_self_iff)
  rw [selectorItems, Form.elements_append, Form.elements_append, Form.elements_optional,
    Form.elements_optional, List.append_assoc]
  cases o.mustBeFresh <;> simp [Form.elements_optional, Form.element, Form.flexible]

/-- The field of selectors is written behind them, if there are any. -/
theorem head_append_selectors (o : InterestOptions) :
    (if (Form.flexible.elements (selectorItems o)).length > 0 then
      Form.flexibleBytes selectorsType (Form.flexible.elements (selectorItems o)).length
      else []) ++ Form.flexible.elements (selectorItems o) =
      Form.flexible.elements (selectorsItems o) := by
  unfold selectorsItems
  split
  · rw [Form.elements_cons, Form.elements_nil, List.append_nil]
    rfl
  · rename_i hnone
    rw [List.eq_nil_of_length_eq_zero (Nat.eq_zero_of_not_pos hnone)]
    rfl

/-- What comes of encoding an interest. -/
theorem result_encodeInterest (name : Name) (o : InterestOptions) :
    Write.Result
      (Form.flexible.element interestType (Form.flexible.elements (interestItems name o))) True
      (Write.roomFor name 0) (encodeInterest name o) := by
  have hscope := fun n : UInt8 => puts_writeNumber scopeType n.toNat
  have hlifetime := fun n : UInt64 => puts_writeNumber lifetimeType n.toNat
  have hnonce := puts_writeElement nonceType (Write.puts_bytes (o.nonce.getD (derivedNonce name o)))
  have hselectors : Write.Puts (do
      let length ← Write.measured (writeSelectors o)
      if length > 0 then Tlv.writeHead selectorsType length
      writeName name) () _ (True ∧ True) :=
    (puts_writeSelectors o).measured.bind
      ((Form.puts_writeHead selectorsType _).andThenIf (_ > 0) (puts_writeName name))
  have hfields := (Write.puts_optional hscope (writtenScope o)).andThen <|
    (Write.puts_optional hlifetime o.lifetime).andThen <| hnonce.andThen hselectors
  have hitems : Write.Puts _ () (Form.flexible.elements (interestItems name o)) True :=
    hfields.congr (by
      rw [List.append_assoc (Form.flexible.elements [nameItem name]), head_append_selectors]
      simp [interestItems, travelItems, Form.elements_append, Form.elements_optional]) (by simp)
  exact (puts_writeElement interestType hitems).result _

/-- What an encoded interest consists of. -/
theorem encodeInterest_eq_ok_iff (name : Name) (bytes : Bytes) (o : InterestOptions) :
    encodeInterest name o = .ok bytes ↔
      (Form.flexible.element interestType
        (Form.flexible.elements (interestItems name o))).length ≤ Write.roomFor name 0 ∧
      bytes = Form.flexible.element interestType (Form.flexible.elements (interestItems name o)) := by
  rw [(result_encodeInterest name o).eq_ok_iff, true_and]

/-- The details of an encoded interest. -/
def interestDetails (name : Name) (o : InterestOptions) : NdnDetails where
  minSuffix := o.minSuffix.getD 0
  maxSuffix := o.maxSuffix.getD 64
  scope := (writtenScope o).elim 3 UInt8.toUInt64
  mustBeFresh := o.mustBeFresh
  nonce := some (o.nonce.getD (derivedNonce name o))
  lifetime := o.lifetime

theorem readable_selectorItems {o : InterestOptions}
    (hlength : (Form.flexible.elements (selectorItems o)).length < Form.flexible.limit) :
    Form.flexible.Readable (selectorItems o) := by
  apply Form.readable_of_length _ _ hlength
  intro i hi
  rcases List.mem_append.1 hi with hmin | hrest
  · rw [Form.mem_optional hmin]
    simp [minSuffixType, Form.flexible]
  · rcases List.mem_append.1 hrest with hmax | hfresh
    · rw [Form.mem_optional hmax]
      simp [maxSuffixType, Form.flexible]
    · rw [Form.mem_optional hfresh]
      simp [mustBeFreshType, Form.flexible]

/-- The selectors say what was asked for. -/
theorem foldM_selectorItems {o : InterestOptions}
    (hlength : (Form.flexible.elements (selectorItems o)).length < Form.flexible.limit) (pos : Nat) :
    (Tlv.Head.flexible.elements ⟨pos, Form.flexible.elements (selectorItems o)⟩).foldM {}
      readSelector = .ok {
        minSuffix := o.minSuffix.getD 0
        maxSuffix := o.maxSuffix.getD 64
        mustBeFresh := o.mustBeFresh } := by
  have hmin : ∀ (d : NdnDetails) (n : UInt64) (pos : Nat),
      readSelector d (Form.flexible.place pos minSuffixType (nonNegativeBytes n.toNat)) =
        .ok { d with minSuffix := n } := by
    intro d n pos
    rw [readSelector, Form.place_type, if_pos rfl, word_place]
    rfl
  have hmax : ∀ (d : NdnDetails) (n : UInt64) (pos : Nat),
      readSelector d (Form.flexible.place pos maxSuffixType (nonNegativeBytes n.toNat)) =
        .ok { d with maxSuffix := n } := by
    intro d n pos
    rw [readSelector, Form.place_type, if_neg (by decide), if_pos rfl, word_place]
    rfl
  have hfresh : ∀ (d : NdnDetails) (_ : Unit) (pos : Nat),
      readSelector d (Form.flexible.place pos mustBeFreshType []) =
        .ok { d with mustBeFresh := true } := fun _ _ _ => rfl
  have hfold := Form.flexible.foldM_elements (readable_selectorItems hlength) pos {} readSelector
  rw [selectorItems, Form.foldlM_places_append,
    Form.foldlM_optional _ (fun d n => { d with minSuffix := n }) hmin] at hfold
  simp only [bind, Except.bind] at hfold
  rw [Form.foldlM_places_append,
    Form.foldlM_optional _ (fun d n => { d with maxSuffix := n }) hmax] at hfold
  simp only [bind, Except.bind] at hfold
  rw [Form.foldlM_optional _ (fun d _ => { d with mustBeFresh := true }) hfresh] at hfold
  refine hfold.trans ?_
  cases o.minSuffix <;> cases o.maxSuffix <;> cases o.mustBeFresh <;> rfl

/-- The field of selectors says what was asked for, also if it is not there. -/
theorem foldlM_selectorsItems {o : InterestOptions}
    (hlength : (Form.flexible.elements (selectorItems o)).length < Form.flexible.limit)
    (name : Option Name) (content : Option Span) (pos : Nat) :
    (Form.flexible.places pos (selectorsItems o)).foldlM readField ⟨name, content, {}⟩ =
      .ok ⟨name, content, {
        minSuffix := o.minSuffix.getD 0
        maxSuffix := o.maxSuffix.getD 64
        mustBeFresh := o.mustBeFresh }⟩ := by
  unfold selectorsItems
  split
  · have hfold := foldM_selectorItems hlength (pos + (Form.flexible.bytes selectorsType
      (Form.flexible.elements (selectorItems o)).length).length)
    rw [Form.foldlM_places_cons, readField, Form.place_type]
    dsimp only
    rw [if_neg (by decide), if_pos rfl, Form.place]
    dsimp only
    rw [hfold]
    rfl
  · rename_i hnone
    have hitems := Form.eq_nil_of_elements _ (readable_selectorItems hlength)
      (List.eq_nil_of_length_eq_zero (Nat.eq_zero_of_not_pos hnone))
    have hfold := foldM_selectorItems hlength pos
    rw [hitems] at hfold
    have hreadable : Form.flexible.Readable [] := by
      intro i hi
      cases hi
    have hempty := Form.flexible.foldM_elements hreadable pos ({} : NdnDetails) readSelector
    have hdetails := Except.ok.inj (hempty.symm.trans hfold)
    exact congrArg (fun d => (Except.ok ⟨name, content, d⟩ : Except DecodeError Draft)) hdetails

theorem readField_nonce (draft : Draft) (nonce : Bytes) (pos : Nat) :
    readField draft (Form.flexible.place pos nonceType nonce) =
      .ok { draft with details := { draft.details with nonce := some nonce } } := by
  rw [readField, Form.place_type]
  rfl

/-- The fields behind the nonce say for how long and how far the interest asks. -/
theorem foldlM_travelItems (o : InterestOptions) (name : Option Name) (content : Option Span)
    (d : NdnDetails) (pos : Nat) :
    (Form.flexible.places pos (travelItems o)).foldlM readField ⟨name, content, d⟩ =
      .ok ⟨name, content, { d with
        lifetime := o.lifetime.elim d.lifetime some
        scope := (writtenScope o).elim d.scope UInt8.toUInt64 }⟩ := by
  have hlifetime : ∀ (draft : Draft) (n : UInt64) (pos : Nat),
      readField draft (Form.flexible.place pos lifetimeType (nonNegativeBytes n.toNat)) =
        .ok { draft with details := { draft.details with lifetime := some n } } := by
    intro draft n pos
    rw [readField, Form.place_type, if_neg (by decide), if_neg (by decide), if_neg (by decide),
      if_neg (by decide), if_pos rfl, word_place]
    rfl
  have hscope : ∀ (draft : Draft) (n : UInt8) (pos : Nat),
      readField draft (Form.flexible.place pos scopeType (nonNegativeBytes n.toNat)) =
        .ok { draft with details := { draft.details with scope := n.toUInt64 } } := by
    intro draft n pos
    rw [← UInt8.toNat_toUInt64, readField, Form.place_type, if_neg (by decide),
      if_neg (by decide), if_neg (by decide), if_pos rfl, word_place]
    rfl
  rw [travelItems, Form.foldlM_places_append, Form.foldlM_optional _ (fun draft n =>
    { draft with details := { draft.details with lifetime := some n } }) hlifetime]
  simp only [bind, Except.bind]
  rw [Form.foldlM_optional _ (fun draft n =>
    { draft with details := { draft.details with scope := n.toUInt64 } }) hscope]
  cases o.lifetime <;> cases writtenScope o <;> rfl

/-- An interest is read as the interest that it is, if its name is read. -/
theorem decode_interest {name : Name} (hsuite : name.suite = .ndn) {o : InterestOptions}
    (hall : (Form.flexible.elements (interestItems name o)).length < Form.flexible.limit) :
    decode (Form.flexible.element interestType (Form.flexible.elements (interestItems name o))) =
      (name.reread.map fun read =>
        (⟨Form.flexible.element interestType (Form.flexible.elements (interestItems name o)),
          .message .interest read none, .ndn (interestDetails name o)⟩,
          (Form.flexible.element interestType
            (Form.flexible.elements (interestItems name o))).length)) := by
  have hreadable : Form.flexible.Readable (interestItems name o) := by
    apply Form.readable_of_length _ _ hall
    intro i hi
    rcases List.mem_cons.1 hi with rfl | hi
    · simp [nameItem, nameType, Form.flexible]
    rcases List.mem_append.1 hi with hselectors | hi
    · unfold selectorsItems at hselectors
      split at hselectors
      · rw [List.mem_singleton.1 hselectors]
        simp [selectorsType, Form.flexible]
      · cases hselectors
    rcases List.mem_cons.1 hi with rfl | hi
    · simp [nonceType, Form.flexible]
    rcases List.mem_append.1 hi with hlifetime | hscope
    · rw [Form.mem_optional hlifetime]
      simp [lifetimeType, Form.flexible]
    · rw [Form.mem_optional hscope]
      simp [scopeType, Form.flexible]
  have hselectors : (Form.flexible.elements (selectorItems o)).length < Form.flexible.limit := by
    by_cases hsome : (Form.flexible.elements (selectorItems o)).length > 0
    · apply Nat.lt_of_le_of_lt _ hall
      exact Form.length_le_elements _ (i := (selectorsType, Form.flexible.elements (selectorItems o)))
        (by simp [interestItems, selectorsItems, hsome])
    · have hzero := Nat.eq_zero_of_not_pos hsome
      rw [hzero]
      simp [Form.flexible]
  have hname := readField_name hsuite (hreadable (nameItem name) List.mem_cons_self).2
  have hfields : (Form.flexible.places (Form.flexible.bytes interestType
      (Form.flexible.elements (interestItems name o)).length).length
      (interestItems name o)).foldlM readField {} =
        name.reread.map fun read => ⟨some read, none, interestDetails name o⟩ := by
    simp only [interestItems, nameItem, Form.foldlM_places_cons, hname]
    cases name.reread with
    | error e => rfl
    | ok read =>
      simp only [Except.map, bind, Except.bind, Form.foldlM_places_append, Form.foldlM_places_cons,
        foldlM_selectorsItems hselectors, readField_nonce]
      rw [foldlM_travelItems, interestDetails]
      cases o.lifetime <;> cases writtenScope o <;> rfl
  exact decode_fields (.inl rfl) hreadable hall hfields fun _ => rfl

/-- An encoded interest is read as the interest that it is, if its name is reread. -/
theorem decode_encodeInterest_reread {name : Name} (hsuite : name.suite = .ndn) {bytes : Bytes}
    {o : InterestOptions} (hroom : Write.roomFor name 0 < 2 ^ 60)
    (hok : encodeInterest name o = .ok bytes) :
    decode (Switch.dropFrom bytes) = (name.reread.map fun read =>
      (⟨bytes, .message .interest read none, .ndn (interestDetails name o)⟩,
        (Switch.dropFrom bytes).length)) := by
  obtain ⟨hle, rfl⟩ := (encodeInterest_eq_ok_iff name bytes o).1 hok
  have hall : (Form.flexible.elements (interestItems name o)).length < Form.flexible.limit := by
    rw [Form.length_element] at hle
    simp only [Form.flexible] at hle ⊢
    omega
  rw [dropFrom_element (.inl rfl), decode_interest hsuite hall]

/-- An encoded interest is read as the interest that it is. -/
theorem decode_encodeInterest {name : Name} (h : name.Restorable) (hsuite : name.suite = .ndn)
    {bytes : Bytes} {o : InterestOptions} (hroom : Write.roomFor name 0 < 2 ^ 60)
    (hok : encodeInterest name o = .ok bytes) :
    decode (Switch.dropFrom bytes) = .ok (⟨bytes, .message .interest name none,
      .ndn (interestDetails name o)⟩, (Switch.dropFrom bytes).length) := by
  rw [decode_encodeInterest_reread hsuite hroom hok, h.reread_eq]
  rfl

end NameRelay.Ndn
