-- SUMMARY: An element that the NDN reader does not look at is carried along and changes nothing that is read.
import NameRelay.Proofs.Format.Framing
import NameRelay.Proofs.Wire.Moving

/-!
# Elements of unknown types

The reader of NDN packets passes over the elements it does not know, at the top and inside of names,
selectors and meta information. A packet may therefore have more of them (`Grown`), and only its bytes
and the place of its content are others. Contents are compared by their bytes: `Told` is what the
fields of a message have said with the content itself in place of where it stands, and then every step
of reading goes by the types and the values of elements alone.
-/

namespace NameRelay.Ndn

open Tlv (Element ByValue)
open Tlv.Head (flexible Inserted Spelled Whole moves_flexible frames_flexible)

-- ---------------------------------------------------------------------------
-- Types that are looked at
-- ---------------------------------------------------------------------------

/-- The types of the fields that say something. -/
def fieldTypes : List Nat :=
  [nameType, selectorsType, nonceType, scopeType, lifetimeType, metaInfoType, payloadType]

/-- The types of the elements that are looked at in the fields that are made of elements. Selectors
    without effect are not among them. -/
def partTypes : List (Nat × List Nat) :=
  [(nameType, [componentType]),
    (selectorsType, [minSuffixType, maxSuffixType, mustBeFreshType, publisherKeyType]),
    (metaInfoType, [contentKindType, freshnessType, finalBlockType])]

/-- The new fields of a message are the old ones with one more element that is not looked at, beside
    them or inside one of them. -/
inductive Grown : Bytes → Bytes → Prop
  | beside {fields grown : Bytes} (h : flexible.Inserted fieldTypes fields grown) :
    Grown fields grown
  | inside {front back field parts longer grown : Bytes} {type : Nat} {types : List Nat}
    (hfront : flexible.Whole front) (htype : (type, types) ∈ partTypes)
    (hfield : flexible.Spelled field type parts) (hparts : flexible.Inserted types parts grown)
    (hlonger : flexible.Spelled longer type grown) :
    Grown (front ++ field ++ back) (front ++ longer ++ back)

-- ---------------------------------------------------------------------------
-- Steps go by values
-- ---------------------------------------------------------------------------

theorem word_congr {e f : Element} (h : e.value.rest = f.value.rest) : e.word = f.word := by
  rw [Element.word, Element.word, h]

theorem byValue_readSelector : ByValue readSelector := by
  intro d e f htype hvalue
  simp only [readSelector, htype, hvalue, word_congr hvalue]

theorem readFinalBlock_rest (d : NdnDetails) {c c' : Cursor} (h : c.rest = c'.rest) :
    readFinalBlock d c = readFinalBlock d c' := by
  have hplace (c : Cursor) : readFinalBlock d c = readFinalBlock d (.ofBytes c.rest) := by
    have hread := Tlv.Head.element_moved moves_flexible c.pos (.ofBytes c.rest)
    rw [readFinalBlock, readFinalBlock]
    change flexible.element ⟨c.pos, c.rest⟩ = _ at hread
    rw [hread]
    cases flexible.element (.ofBytes c.rest) <;> rfl
  rw [hplace c, hplace c', h]

theorem byValue_readMetaInfo : ByValue readMetaInfo := by
  intro d e f htype hvalue
  simp only [readMetaInfo, htype, word_congr hvalue, readFinalBlock_rest d hvalue]

theorem readName_rest {c d : Cursor} (h : c.rest = d.rest) : readName c = readName d := by
  refine congrArg (· >>= _) (Tlv.Head.foldM_rest moves_flexible ?_ h _)
  intro name e f htype hvalue
  simp only [htype, hvalue]

/-- What the fields of a message have said, with the content itself. -/
structure Told where
  name : Option Name := none
  content : Option Bytes := none
  details : NdnDetails := {}

/-- What a draft says of a packet with these bytes. -/
def Draft.told (draft : Draft) (whole : Bytes) : Told :=
  ⟨draft.name, draft.content.map (·.of whole), draft.details⟩

/-- Takes one field, as if its value were all there is. -/
def Told.take (told : Told) (e : Element) : Except DecodeError Told :=
  (readField ⟨told.name, none, told.details⟩ ⟨e.type, .ofBytes e.value.rest, []⟩).map fun draft =>
    ⟨draft.name, (draft.content.map (·.of e.value.rest)).or told.content, draft.details⟩

theorem byValue_take : ByValue Told.take := by
  intro told e f htype hvalue
  rw [Told.take, Told.take, htype, hvalue]

/-- A field says the same wherever it stands. -/
theorem told_readField {e : Element} {whole : Bytes} (hin : e.value.In whole) (draft : Draft) :
    (draft.told whole).take e = (readField draft e).map (·.told whole) := by
  have hname : readName (.ofBytes e.value.rest) = readName e.value := readName_rest rfl
  have hselectors (d : NdnDetails) : (flexible.elements (.ofBytes e.value.rest)).foldM d readSelector
      = (flexible.elements e.value).foldM d readSelector :=
    (Tlv.Head.foldM_place moves_flexible byValue_readSelector _ e.value.rest d).symm
  have hmeta (d : NdnDetails) : (flexible.elements (.ofBytes e.value.rest)).foldM d readMetaInfo
      = (flexible.elements e.value).foldM d readMetaInfo :=
    (Tlv.Head.foldM_place moves_flexible byValue_readMetaInfo _ e.value.rest d).symm
  have hword : Element.word ⟨e.type, .ofBytes e.value.rest, []⟩ = e.word := word_congr rfl
  have hall : (Cursor.ofBytes e.value.rest).span.of e.value.rest = e.value.rest :=
    Cursor.span_of ⟨[], [], (List.append_nil _).symm, rfl⟩
  have hplace := Cursor.span_of hin
  simp only [Told.take, Draft.told, readField, hname, hselectors, hmeta, hword]
  split
  · cases readName e.value <;> rfl
  split
  · cases (flexible.elements e.value).foldM draft.details readSelector <;> rfl
  split
  · rfl
  split
  · cases e.word <;> rfl
  split
  · cases e.word <;> rfl
  split
  · cases (flexible.elements e.value).foldM draft.details readMetaInfo <;> rfl
  split
  · simp only [pure, Except.pure, Except.map, Option.map_some, hall, hplace, Option.some_or]
  · rfl

-- ---------------------------------------------------------------------------
-- What grown fields say
-- ---------------------------------------------------------------------------

variable {told : Told} {e f : Element}

theorem take_of_not_mem (h : e.type ∉ fieldTypes) : told.take e = .ok told := by
  simp only [fieldTypes, List.mem_cons, List.not_mem_nil, or_false, not_or] at h
  obtain ⟨hname, hselectors, hnonce, hscope, hlifetime, hmeta, hpayload⟩ := h
  simp only [Told.take, readField, if_neg hname, if_neg hselectors, if_neg hnonce, if_neg hscope,
    if_neg hlifetime, if_neg hmeta, if_neg hpayload]
  rfl

theorem take_name (h : e.type = nameType) :
    told.take e = (readName (.ofBytes e.value.rest)).map fun name =>
      { told with name := some name } := by
  simp only [Told.take, readField, if_pos h]
  cases readName (.ofBytes e.value.rest) <;> rfl

theorem take_selectors (h : e.type = selectorsType) :
    told.take e = ((flexible.elements (.ofBytes e.value.rest)).foldM told.details readSelector).map
      fun details => { told with details := details } := by
  simp only [Told.take, readField, h]
  cases (flexible.elements (.ofBytes e.value.rest)).foldM told.details readSelector <;> rfl

theorem take_metaInfo (h : e.type = metaInfoType) :
    told.take e = ((flexible.elements (.ofBytes e.value.rest)).foldM told.details readMetaInfo).map
      fun details => { told with details := details } := by
  simp only [Told.take, readField, h]
  cases (flexible.elements (.ofBytes e.value.rest)).foldM told.details readMetaInfo <;> rfl

theorem readSelector_of_not_mem (d : NdnDetails) (e : Element)
    (h : e.type ∉ [minSuffixType, maxSuffixType, mustBeFreshType, publisherKeyType]) :
    readSelector d e = .ok d := by
  simp only [List.mem_cons, List.not_mem_nil, or_false, not_or] at h
  obtain ⟨hmin, hmax, hfresh, hkey⟩ := h
  simp only [readSelector, if_neg hmin, if_neg hmax, if_neg hfresh, if_neg hkey]
  rfl

theorem readMetaInfo_of_not_mem (d : NdnDetails) (e : Element)
    (h : e.type ∉ [contentKindType, freshnessType, finalBlockType]) : readMetaInfo d e = .ok d := by
  simp only [List.mem_cons, List.not_mem_nil, or_false, not_or] at h
  obtain ⟨hkind, hfresh, hblock⟩ := h
  simp only [readMetaInfo, if_neg hkind, if_neg hfresh, if_neg hblock]
  rfl

theorem readName_inserted {parts grown : Bytes} (h : flexible.Inserted [componentType] parts grown) :
    readName (.ofBytes grown) = readName (.ofBytes parts) := by
  refine congrArg (· >>= _) (Tlv.Head.foldM_inserted frames_flexible moves_flexible ?_ ?_ h _)
  · intro name e f htype hvalue
    simp only [htype, hvalue]
  · intro name e htype
    rw [if_neg fun heq => htype (List.mem_singleton.2 heq)]

/-- A field made of elements says the same with one more that is not looked at. -/
theorem take_inserted {type : Nat} {types : List Nat} {parts grown : Bytes}
    (htypes : (type, types) ∈ partTypes) (h : flexible.Inserted types parts grown)
    (he : e.type = type) (hparts : e.value.rest = parts) (hf : f.type = type)
    (hgrown : f.value.rest = grown) : told.take f = told.take e := by
  simp only [partTypes, List.mem_cons, List.not_mem_nil, or_false, Prod.mk.injEq] at htypes
  rcases htypes with ⟨rfl, rfl⟩ | ⟨rfl, rfl⟩ | ⟨rfl, rfl⟩
  · rw [take_name he, take_name hf, hparts, hgrown, readName_inserted h]
  · rw [take_selectors he, take_selectors hf, hparts, hgrown,
      Tlv.Head.foldM_inserted frames_flexible moves_flexible byValue_readSelector
        readSelector_of_not_mem h]
  · rw [take_metaInfo he, take_metaInfo hf, hparts, hgrown,
      Tlv.Head.foldM_inserted frames_flexible moves_flexible byValue_readMetaInfo
        readMetaInfo_of_not_mem h]

/-- What the fields of a message say. -/
def tell (fields : Bytes) : Except DecodeError Told :=
  (flexible.elements (.ofBytes fields)).foldM {} Told.take

theorem tell_grown {fields grown : Bytes} (h : Grown fields grown) : tell grown = tell fields := by
  cases h with
  | beside h =>
    exact Tlv.Head.foldM_inserted frames_flexible moves_flexible byValue_take
      (fun _ _ => take_of_not_mem) h _
  | inside hfront htype hfield hparts hlonger =>
    refine Tlv.Head.foldM_replaced frames_flexible moves_flexible byValue_take hfront hfield hlonger
      (fun told e f he hvalue hf hvalue' => ?_) _ _
    exact take_inserted htype hparts he hvalue hf hvalue'

-- ---------------------------------------------------------------------------
-- Packets
-- ---------------------------------------------------------------------------

/-- Fields that are read in their place say what they say on their own. -/
theorem tell_of_in {value : Cursor} {whole : Bytes} (hin : value.In whole) :
    tell value.rest = ((flexible.elements value).foldM {} readField).map (·.told whole) := by
  have hfold := (flexible.elements value).foldM_map (Draft.told · whole) id
    (fun e he => told_readField (Tlv.Head.value_in_of_mem_elements frames_flexible hin he)) {}
  rw [List.map_id] at hfold
  exact (Tlv.Head.foldM_place moves_flexible byValue_take value.pos value.rest _).symm.trans hfold

/-- What a message of this type is for. -/
def kindOf (type : Nat) : MessageKind := if type = interestType then .interest else .content

theorem decode_of_tell {wire fields : Bytes} {type : Nat} {name : Name} {content : Option Bytes}
    {d : NdnDetails} (htype : type = interestType ∨ type = dataType)
    (hwire : flexible.Spelled wire type fields) (htell : tell fields = .ok ⟨some name, content, d⟩)
    (rest : Bytes) :
    ∃ span, decode (wire ++ rest) =
        .ok (⟨wire, .message (kindOf type) name span, .ndn d⟩, wire.length) ∧
      span.map (·.of wire) = content := by
  obtain ⟨e, hread, rfl, rfl⟩ := hwire
  obtain ⟨hbytes, -, -, hin, hmore⟩ := Tlv.Head.element_front frames_flexible hread
  rw [List.append_nil] at hbytes
  rw [← hbytes] at hin hmore
  rw [tell_of_in hin] at htell
  cases hfields : (flexible.elements e.value).foldM {} readField with
  | error fault =>
    rw [hfields] at htell
    cases htell
  | ok draft =>
    rw [hfields] at htell
    obtain ⟨draftName, span, details⟩ := draft
    cases htell
    refine ⟨span, ?_, rfl⟩
    have hlink : ¬e.type = linkType := by rcases htype with h | h <;> rw [h] <;> decide
    simp only [decode, hmore, bind, Except.bind, if_neg hlink, if_pos htype, hfields,
      List.take_left, kindOf]
    rfl

theorem tell_of_decode {bytes : Bytes} {p : Packet} {n : Nat} {kind : MessageKind} {name : Name}
    {span : Option Span} (h : decode bytes = .ok (p, n)) (hbody : p.body = .message kind name span) :
    ∃ type fields d, (type = interestType ∨ type = dataType) ∧
      flexible.Spelled p.bytes type fields ∧ flexible.Whole fields ∧ kind = kindOf type ∧
      p.details = .ndn d ∧ tell fields = .ok ⟨some name, span.map (·.of p.bytes), d⟩ := by
  obtain ⟨e, rest, -, -, -, hin, hread, -, hcases⟩ := decode_cases h
  have hspelled := hread []
  rw [List.append_nil] at hspelled
  rcases hcases with ⟨header, piece, -, rfl⟩ | ⟨htype, name, content, details, hfields, rfl⟩
  · cases hbody
  · have htell := tell_of_in hin
    rw [hfields] at htell
    cases hbody
    exact ⟨e.type, e.value.rest, details, htype, ⟨e, hspelled, rfl, rfl⟩,
      Tlv.Head.whole_of_foldM htell, rfl, rfl, htell⟩

/-- A message is one element over fields. With one more element among the fields that is not looked
    at, or inside one of them, there is a packet again, and every packet with these fields, however
    the lengths are written, is read with its own bytes and says the same. -/
theorem decode_grown {bytes : Bytes} {p : Packet} {n : Nat} {kind : MessageKind} {name : Name}
    {span : Option Span} (h : decode bytes = .ok (p, n)) (hbody : p.body = .message kind name span) :
    (∃ type fields, flexible.Spelled p.bytes type fields ∧ flexible.Whole fields) ∧
      ∀ type fields grown, flexible.Spelled p.bytes type fields → Grown fields grown →
        (grown.length < 2 ^ 64 → ∃ new, flexible.Spelled new type grown) ∧
        ∀ new rest, flexible.Spelled new type grown → ∃ moved,
          decode (new ++ rest) = .ok (⟨new, .message kind name moved, p.details⟩, new.length) ∧
            moved.map (·.of new) = span.map (·.of p.bytes) := by
  obtain ⟨type, fields, d, htype, hspelled, hwhole, rfl, hdetails, htell⟩ := tell_of_decode h hbody
  refine ⟨⟨type, fields, hspelled, hwhole⟩, fun type' fields' grown hspelled' hgrown => ?_⟩
  obtain ⟨rfl, rfl⟩ : type' = type ∧ fields' = fields := by
    obtain ⟨e, hread, rfl, rfl⟩ := hspelled
    obtain ⟨f, hread', rfl, rfl⟩ := hspelled'
    cases hread.symm.trans hread'
    exact ⟨rfl, rfl⟩
  refine ⟨fun hlength => ?_, fun new rest hnew => ?_⟩
  · have hlimit : type' < 2 ^ 64 := by rcases htype with rfl | rfl <;> decide
    exact ⟨_, Tlv.Form.flexible.spelled_element hlimit hlength⟩
  · rw [← tell_grown hgrown] at htell
    rw [hdetails]
    exact decode_of_tell htype hnew htell rest

/-- An interest for `/a`, and the same with an element of type 128 in front of the component. The
    length of the longer name is written in three bytes. -/
theorem decode_grown_name :
    ∃ p, decode [5, 8, 7, 3, 8, 1, 97, 10, 1, 42] = .ok (p, 10) ∧
      decode [5, 13, 7, 253, 0, 6, 128, 1, 1, 8, 1, 97, 10, 1, 42] =
        .ok (⟨[5, 13, 7, 253, 0, 6, 128, 1, 1, 8, 1, 97, 10, 1, 42], p.body, p.details⟩, 15) := by
  have hread : decode [5, 8, 7, 3, 8, 1, 97, 10, 1, 42] =
      .ok (⟨[5, 8, 7, 3, 8, 1, 97, 10, 1, 42], .message .interest ⟨.ndn, [[97]], none, .none⟩ none,
        .ndn { nonce := some [42] }⟩, 10) := by
    cbv
  have hunknown : flexible.Spelled [128, 1, 1] 128 [1] := ⟨_, rfl, rfl, rfl⟩
  have hname : flexible.Spelled [7, 3, 8, 1, 97] nameType [8, 1, 97] := ⟨_, rfl, rfl, rfl⟩
  have hlonger : flexible.Spelled [7, 253, 0, 6, 128, 1, 1, 8, 1, 97] nameType
      [128, 1, 1, 8, 1, 97] := ⟨_, rfl, rfl, rfl⟩
  have hparts : flexible.Inserted [componentType] ([] ++ [8, 1, 97])
      ([] ++ [128, 1, 1] ++ [8, 1, 97]) :=
    .intro Tlv.Head.whole_nil hunknown (by decide)
  have hfields : Grown ([] ++ [7, 3, 8, 1, 97] ++ [10, 1, 42])
      ([] ++ [7, 253, 0, 6, 128, 1, 1, 8, 1, 97] ++ [10, 1, 42]) :=
    .inside Tlv.Head.whole_nil List.mem_cons_self hname hparts hlonger
  obtain ⟨-, hgrown⟩ := decode_grown hread rfl
  obtain ⟨-, hnew⟩ := hgrown interestType _ _ ⟨_, rfl, rfl, rfl⟩ hfields
  obtain ⟨moved, hreread, hcontent⟩ := hnew
    [5, 13, 7, 253, 0, 6, 128, 1, 1, 8, 1, 97, 10, 1, 42] [] ⟨_, rfl, rfl, rfl⟩
  rw [Option.map_none, Option.map_eq_none_iff] at hcontent
  rw [hcontent] at hreread
  exact ⟨_, hread, hreread⟩

end NameRelay.Ndn
