-- SUMMARY: Which name the text of a name is read as.
import NameRelay.Name.Uri
import NameRelay.Proofs.Name.Chunks
import NameRelay.Proofs.Wire.Framing

/-!
# The text of a name

Reading undoes writing byte by byte: an escaped byte is found again, no escaped component has a slash
in it, and so the pieces between the slashes are the components. Hence a written name is read as the
name of what its components spell. They spell their values, and every name that is built from values
comes back.

The one exception is a chunk component where components are framed. It is written as `chunk=` and its
number, and a reader takes these words for a value like any other.
-/

namespace NameRelay

/-! ## Escaped bytes -/

namespace Uri

/-- The bytes of a text. -/
def bytesOf (text : List Char) : Bytes := text.flatMap String.utf8EncodeChar

theorem toUTF8_ofList (text : List Char) :
    (String.ofList text).toUTF8.data.toList = bytesOf text := by
  rw [String.toUTF8, String.toByteArray_ofList, List.utf8Encode, List.data_toByteArray, bytesOf]

theorem bytesOf_append (front back : List Char) :
    bytesOf (front ++ back) = bytesOf front ++ bytesOf back := List.flatMap_append

theorem bytesOf_cons_of_ascii {c : Char} (h : c.toNat < 128) (rest : List Char) :
    bytesOf (c :: rest) = UInt8.ofNat c.toNat :: bytesOf rest := by
  have hone : String.utf8EncodeChar c = [UInt8.ofNat c.toNat] := if_pos (Nat.le_of_lt_succ h)
  rw [bytesOf, List.flatMap_cons, hone]
  rfl

theorem bytesOf_of_ascii {text : List Char} (h : ∀ c ∈ text, c.toNat < 128) :
    bytesOf text = text.map fun c => UInt8.ofNat c.toNat := by
  induction text with
  | nil => rfl
  | cons c rest ih =>
    rw [bytesOf_cons_of_ascii (h c List.mem_cons_self), ih fun d hd => h d (List.mem_cons_of_mem c hd),
      List.map_cons]

/-- The digit of a percent escape as a byte. -/
def digitByte (n : Nat) : UInt8 := UInt8.ofNat (hexUpper n).toNat

theorem digit_ascii : ∀ n < 16, (hexUpper n).toNat < 128 := by decide

theorem hexValue?_digitByte : ∀ n < 16, hexValue? (digitByte n) = some (UInt8.ofNat n) := by decide

theorem digitByte_ne_slash : ∀ n < 16, digitByte n ≠ slash := by decide

theorem digits_lt (b : UInt8) : b.toNat / 16 < 16 ∧ b.toNat % 16 < 16 := by
  have hbyte := b.toNat_lt
  omega

/-- A byte that stands for itself is ASCII, and neither the percent sign nor a slash. -/
theorem plain_spec : ∀ n < 256, isPlain (UInt8.ofNat n) = true →
    n < 128 ∧ (Char.ofNat n).toNat = n ∧ UInt8.ofNat n ≠ 0x25 ∧ UInt8.ofNat n ≠ slash := by
  decide +kernel

/-- A byte is written as itself or as three bytes. -/
theorem bytesOf_escapeByte (b : UInt8) : bytesOf (escapeByte b) =
    if isPlain b then [b] else [0x25, digitByte (b.toNat / 16), digitByte (b.toNat % 16)] := by
  obtain ⟨hhigh, hlow⟩ := digits_lt b
  unfold escapeByte
  split
  · rename_i hplain
    rw [← UInt8.ofNat_toNat (x := b)] at hplain
    obtain ⟨hascii, hnumber, -⟩ := plain_spec b.toNat b.toNat_lt hplain
    rw [bytesOf_cons_of_ascii (by rwa [hnumber]), hnumber, UInt8.ofNat_toNat]
    rfl
  · rw [bytesOf_cons_of_ascii (by decide), bytesOf_cons_of_ascii (digit_ascii _ hhigh),
      bytesOf_cons_of_ascii (digit_ascii _ hlow)]
    rfl

theorem ne_of_plain {b : UInt8} (h : isPlain b = true) : b ≠ 0x25 ∧ b ≠ slash := by
  have hspec := plain_spec b.toNat b.toNat_lt
  rw [UInt8.ofNat_toNat] at hspec
  exact (hspec h).2.2

/-- No slash is written for a byte. -/
theorem slash_not_mem_escapeByte (b : UInt8) : slash ∉ bytesOf (escapeByte b) := by
  obtain ⟨hhigh, hlow⟩ := digits_lt b
  rw [bytesOf_escapeByte]
  split
  · rename_i hplain
    rw [List.mem_singleton]
    exact (ne_of_plain hplain).2.symm
  · rw [List.mem_cons, List.mem_cons, List.mem_singleton, not_or, not_or]
    exact ⟨by decide, (digitByte_ne_slash _ hhigh).symm, (digitByte_ne_slash _ hlow).symm⟩

theorem slash_not_mem_escape (value : Bytes) : slash ∉ bytesOf (escape value) := by
  induction value with
  | nil => exact List.not_mem_nil
  | cons b rest ih =>
    rw [escape, List.flatMap_cons, bytesOf_append, List.mem_append, not_or]
    exact ⟨slash_not_mem_escapeByte b, ih⟩

theorem unescape_cons_of_ne {b : UInt8} (h : b ≠ 0x25) (rest : Bytes) :
    unescape (b :: rest) = (unescape rest).map (b :: ·) := by
  rw [unescape.eq_def (b :: rest)]
  exact if_neg h

/-- What is written for a byte is read as this byte. -/
theorem unescape_escapeByte (b : UInt8) (rest : Bytes) :
    unescape (bytesOf (escapeByte b) ++ rest) = (unescape rest).map (b :: ·) := by
  rw [bytesOf_escapeByte]
  split
  · rename_i hplain
    exact unescape_cons_of_ne (ne_of_plain hplain).1 rest
  · obtain ⟨hhigh, hlow⟩ := digits_lt b
    have hbyte : UInt8.ofNat (b.toNat / 16) * 16 + UInt8.ofNat (b.toNat % 16) = b := by
      apply UInt8.toNat_inj.1
      have := b.toNat_lt
      simp only [UInt8.toNat_add, UInt8.toNat_mul, UInt8.toNat_ofNat', UInt8.reduceToNat]
      omega
    simp only [List.cons_append, List.nil_append, unescape, if_true, hexValue?_digitByte _ hhigh,
      hexValue?_digitByte _ hlow, hbyte]

theorem unescape_escape (value : Bytes) : unescape (bytesOf (escape value)) = .ok value := by
  induction value with
  | nil => rfl
  | cons b rest ih =>
    rw [escape, List.flatMap_cons, bytesOf_append, unescape_escapeByte]
    rw [escape] at ih
    rw [ih]
    rfl

/-- Bytes without a percent sign are read as they are. -/
theorem unescape_of_not_mem {bytes : Bytes} (h : (0x25 : UInt8) ∉ bytes) :
    unescape bytes = .ok bytes := by
  induction bytes with
  | nil => rfl
  | cons b rest ih =>
    rw [List.mem_cons, not_or] at h
    rw [unescape_cons_of_ne (Ne.symm h.1), ih h.2]
    rfl

theorem unescape_ne_nil {bytes value : Bytes} (h : unescape bytes = .ok value) (hbytes : bytes ≠ []) :
    value ≠ [] := by
  have hmap (b : UInt8) (rest : Bytes) : (unescape rest).map (b :: ·) ≠ .ok [] := by
    cases unescape rest <;> nofun
  rintro rfl
  unfold unescape at h
  split at h
  · exact hbytes rfl
  · split at h
    · split at h
      · split at h
        · exact hmap _ _ h
        · cases h
      · cases h
    · exact hmap _ _ h

/-! ## Pieces -/

/-- A piece without slashes goes in front of the first one. -/
theorem pieces_append {piece rest first : Bytes} {more : List Bytes} (h : slash ∉ piece)
    (hrest : pieces rest = first :: more) : pieces (piece ++ rest) = (piece ++ first) :: more := by
  induction piece with
  | nil => exact hrest
  | cons b piece ih =>
    rw [List.mem_cons, not_or] at h
    rw [List.cons_append, pieces, if_neg (Ne.symm h.1), ih h.2]
    rfl

/-- Pieces that are written behind slashes are read again, behind an empty one. -/
theorem pieces_flatMap {texts : List Bytes} (h : ∀ text ∈ texts, slash ∉ text) :
    pieces (texts.flatMap (slash :: ·)) = [] :: texts := by
  induction texts with
  | nil => rfl
  | cons text texts ih =>
    have hrest := ih fun t ht => h t (List.mem_cons_of_mem text ht)
    rw [List.flatMap_cons, List.cons_append, pieces, if_pos rfl,
      pieces_append (h text List.mem_cons_self) hrest, List.append_nil]

end Uri

/-! ## What components spell -/

namespace Component

variable {suite : Suite} {wire : Bytes} {n : UInt32}

/-- The words that are written for a chunk number where components are framed. -/
def chunkText (n : UInt32) : List Char := "chunk=".toList ++ (Nat.repr n.toNat).toList

theorem chunkText_eq (n : UInt32) : chunkText n = "chunk=".toList ++ Nat.toDigits 10 n.toNat :=
  congrArg ("chunk=".toList ++ ·) Nat.toList_repr

theorem chunkText_plain {c : Char} (h : c ∈ chunkText n) :
    c.toNat < 128 ∧ c.toNat ≠ 0x25 ∧ c.toNat ≠ 0x2f := by
  rw [chunkText_eq] at h
  rcases List.mem_append.1 h with hword | hnumber
  · have hall : "chunk=".toList.all fun d =>
        d.toNat < 128 ∧ d.toNat ≠ 0x25 ∧ d.toNat ≠ 0x2f := by decide
    exact of_decide_eq_true (List.all_eq_true.1 hall c hword)
  · have hdigit := Char.isDigit_iff_toNat.1 (Nat.isDigit_of_mem_toDigits (by decide) (by decide) hnumber)
    have hlow : 0x30 ≤ c.toNat := hdigit.1
    have hhigh : c.toNat ≤ 0x39 := hdigit.2
    omega

/-- The words for a chunk number as bytes. -/
def chunkWords (n : UInt32) : Bytes := Uri.bytesOf (chunkText n)

theorem chunkWords_eq (n : UInt32) :
    chunkWords n = (chunkText n).map fun c => UInt8.ofNat c.toNat :=
  Uri.bytesOf_of_ascii fun _ hc => (chunkText_plain hc).1

theorem plain_of_mem_chunkWords {b : UInt8} (h : b ∈ chunkWords n) : b ≠ 0x25 ∧ b ≠ Uri.slash := by
  rw [chunkWords_eq] at h
  obtain ⟨c, hc, rfl⟩ := List.mem_map.1 h
  obtain ⟨hascii, hpercent, hslash⟩ := chunkText_plain hc
  rw [ne_eq, ne_eq, ← UInt8.toNat_inj, ← UInt8.toNat_inj, UInt8.toNat_ofNat',
    Nat.mod_eq_of_lt (by omega)]
  exact ⟨hpercent, hslash⟩

theorem length_chunkWords_lt (n : UInt32) : (chunkWords n).length < 0x10000 := by
  have hdigits : (Nat.toDigits 10 n.toNat).length ≤ 10 :=
    (Nat.length_toDigits_le_iff (by decide) (by decide)).2 (Nat.lt_trans n.toNat_lt (by decide))
  rw [chunkWords_eq, List.length_map, chunkText_eq, List.length_append]
  exact Nat.lt_of_le_of_lt (Nat.add_le_add_left hdigits _) (by decide)

theorem chunkWords_ne_nil (n : UInt32) : chunkWords n ≠ [] := nofun

/-- What the text of a component spells: its value, or the words for its number if it is a chunk
    component in a frame. -/
def spelling (suite : Suite) (wire : Bytes) : Bytes :=
  match suite.framesComponents, chunk? suite wire with
  | true, some n => chunkWords n
  | _, _ => value suite wire

/-- The text of a component is read as what it spells, and has no slash in it. -/
theorem unescape_componentText (suite : Suite) (wire : Bytes) :
    Uri.unescape (Uri.bytesOf (Name.componentText suite wire)) = .ok (spelling suite wire) ∧
      Uri.slash ∉ Uri.bytesOf (Name.componentText suite wire) := by
  have hvalue := Uri.unescape_escape (value suite wire)
  have hslash := Uri.slash_not_mem_escape (value suite wire)
  rw [Name.componentText, spelling]
  cases suite.framesComponents with
  | false => exact ⟨hvalue, hslash⟩
  | true =>
    cases chunk? suite wire with
    | none => exact ⟨hvalue, hslash⟩
    | some n =>
      have hplain := fun b (hb : b ∈ chunkWords n) => plain_of_mem_chunkWords hb
      exact ⟨Uri.unescape_of_not_mem fun h => (hplain _ h).1 rfl, fun h => (hplain _ h).2 rfl⟩

theorem spelling_of_unframed (h : suite.framesComponents = false) (wire : Bytes) :
    spelling suite wire = wire := by
  simp [spelling, Component.value, h]

/-- A regular component in a frame is no chunk component. -/
theorem chunk?_frame_segment (hframes : suite.framesComponents = true) (bytes : Bytes) :
    chunk? suite (frame segmentType bytes) = none := by
  have htype : type? (frame segmentType bytes) = some segmentType := type?_frame (by decide) bytes
  have hccnx : segmentType ≠ ccnxChunkType := by decide
  have hcisco : segmentType ≠ ciscoChunkType := by decide
  cases suite with
  | ccnx | cisco => simp [chunk?, chunkDigits?, htype, hccnx, hcisco]
  | ccnb | iot | ndn => cases hframes

/-- A component for a value spells it, and in a frame it is no chunk component. -/
theorem spelling_ofValue {bytes : Bytes} (h : ofValue suite bytes = .ok wire) :
    spelling suite wire = bytes ∧ (suite.framesComponents = true → chunk? suite wire = none) := by
  cases hframes : suite.framesComponents with
  | false =>
    rw [ofValue, hframes] at h
    cases h
    exact ⟨spelling_of_unframed hframes _, fun hframed => absurd hframed Bool.false_ne_true⟩
  | true =>
    rw [ofValue, if_pos hframes, frame?] at h
    split at h
    · cases h
      have hnone := chunk?_frame_segment hframes bytes
      refine ⟨?_, fun _ => hnone⟩
      rw [spelling, hframes, hnone]
      exact value_frame hframes _ _
    · cases h

/-- A chunk component in a frame spells the words for its number, and without a frame it spells
    itself. -/
theorem spelling_ofChunk (h : ofChunk suite n = .ok wire) :
    spelling suite wire = if suite.framesComponents then chunkWords n else wire := by
  split
  · rename_i hframes
    rw [spelling, hframes, (chunk?_ofChunk h).2]
  · rename_i hframes
    exact spelling_of_unframed (Bool.eq_false_iff.2 hframes) wire

theorem spelling_ofChunk_ne_nil (h : ofChunk suite n = .ok wire) : spelling suite wire ≠ [] := by
  rw [spelling_ofChunk h]
  split
  · exact chunkWords_ne_nil n
  · rintro rfl
    have hnumber := (chunk?_ofChunk h).2
    cases suite <;> cases hnumber

end Component

/-! ## Names of values -/

namespace Name

variable {suite : Suite} {name longer : Name} {values : List Bytes}

/-- A name takes a value as its last component if it has room, and the value does not exceed the
    length of a frame. -/
theorem push_eq_ok_iff {value : Bytes} : name.push value = .ok longer ↔ ∃ wire,
    Component.ofValue name.suite value = .ok wire ∧ name.size < maxComponents ∧
      longer = ⟨name.suite, name.components ++ [wire],
        Component.chunk? name.suite wire <|> name.chunk, name.flags⟩ := by
  unfold push pushWire
  cases hwire : Component.ofValue name.suite value with
  | error e => exact iff_of_false nofun nofun
  | ok wire =>
    by_cases hroom : name.size < maxComponents
    · simp only [bind, Except.bind, hroom, if_true, Except.ok.injEq, true_and, exists_eq_left', eq_comm]
    · simp only [bind, Except.bind, hroom, if_false, false_and, and_false, exists_false]
      exact iff_of_false nofun id

/-- The components for values spell them, and where components are framed no number comes in. -/
theorem spelling_pushAll (h : values.foldlM push name = .ok longer) :
    longer.suite = name.suite ∧
      longer.components.map (Component.spelling name.suite) =
        name.components.map (Component.spelling name.suite) ++ values ∧
      (name.suite.framesComponents = true → longer.chunk = name.chunk) := by
  induction values generalizing name with
  | nil =>
    cases h
    exact ⟨rfl, (List.append_nil _).symm, fun _ => rfl⟩
  | cons value values ih =>
    rw [List.foldlM_cons] at h
    obtain ⟨next, hpush, hrest⟩ := ok_of_bind h
    obtain ⟨wire, hwire, -, rfl⟩ := push_eq_ok_iff.1 hpush
    obtain ⟨hspelled, hnone⟩ := Component.spelling_ofValue hwire
    obtain ⟨hsuite, hcomponents, hchunk⟩ := ih hrest
    refine ⟨hsuite, ?_, fun hframes => ?_⟩
    · simpa [hspelled] using hcomponents
    · rw [hchunk hframes, hnone hframes]
      rfl

/-- Values that fit frames, where there are frames, all become components if there is room. -/
theorem exists_pushAll (hroom : name.size + values.length ≤ maxComponents)
    (hshort : name.suite.framesComponents = true → ∀ value ∈ values, value.length < 0x10000) :
    ∃ longer, values.foldlM push name = .ok longer := by
  induction values generalizing name with
  | nil => exact ⟨name, rfl⟩
  | cons value values ih =>
    rw [List.length_cons] at hroom
    have hwire : ∃ wire, Component.ofValue name.suite value = .ok wire := by
      rw [Component.ofValue]
      split
      · rename_i hframes
        exact ⟨_, if_pos (hshort hframes value List.mem_cons_self)⟩
      · exact ⟨value, rfl⟩
    obtain ⟨wire, hwire⟩ := hwire
    have hpush := push_eq_ok_iff.2 ⟨wire, hwire, by omega, rfl⟩
    rw [List.foldlM_cons, hpush]
    refine ih ?_ fun hframes v hv => hshort hframes v (List.mem_cons_of_mem value hv)
    simp only [size, List.length_append, List.length_singleton] at hroom ⊢
    omega

/-! ## Written names -/

/-- The bytes of a written name: each component stands behind a slash. -/
theorem toUTF8_toUri (h : name.components ≠ []) : name.toUri.toUTF8.data.toList =
    (name.components.map fun wire => Uri.bytesOf (componentText name.suite wire)).flatMap
      (Uri.slash :: ·) := by
  rw [toUri, List.isEmpty_eq_false_iff.2 h, if_neg Bool.false_ne_true, Uri.toUTF8_ofList, Uri.bytesOf,
    List.flatMap_assoc, List.flatMap_map]
  rfl

/-- The pieces of a written name are its components, but for empty ones. -/
theorem pieces_toUri (h : ∀ wire ∈ name.components, Component.spelling name.suite wire ≠ []) :
    (Uri.pieces name.toUri.toUTF8.data.toList).filter (!·.isEmpty) =
      name.components.map fun wire => Uri.bytesOf (componentText name.suite wire) := by
  by_cases hempty : name.components = []
  · rw [toUri, hempty]
    rfl
  · rw [toUTF8_toUri hempty, Uri.pieces_flatMap, List.filter_cons_of_neg (by simp),
      List.filter_eq_self]
    · intro text htext
      obtain ⟨wire, hwire, rfl⟩ := List.mem_map.1 htext
      have hread := (Component.unescape_componentText name.suite wire).1
      rw [Bool.not_eq_true', List.isEmpty_eq_false_iff]
      intro hnil
      rw [hnil] at hread
      exact h wire hwire (Except.ok.inj hread).symm
    · intro text htext
      obtain ⟨wire, -, rfl⟩ := List.mem_map.1 htext
      exact (Component.unescape_componentText name.suite wire).2

/-- A written name is read as the name of what its components spell, if none of them spells nothing. -/
theorem ofUri_toUri_eq (h : ∀ wire ∈ name.components, Component.spelling name.suite wire ≠ []) :
    ofUri name.suite name.toUri =
      ofValues name.suite (name.components.map (Component.spelling name.suite)) := by
  rw [ofUri, pieces_toUri h, ofValues, List.foldlM_map, List.foldlM_map]
  simp only [(Component.unescape_componentText _ _).1]
  rfl

theorem suite_ofValues (h : ofValues suite values = .ok name) : name.suite = suite :=
  (spelling_pushAll h).1

/-- The components of a name that is built from values spell these. -/
theorem spelling_ofValues (h : ofValues suite values = .ok name) :
    name.components.map (Component.spelling suite) = values := (spelling_pushAll h).2.1

/-- A name of values that are not empty is read as itself. -/
theorem ofUri_toUri_of_ofValues (hvalues : ∀ value ∈ values, value ≠ [])
    (h : ofValues suite values = .ok name) : ofUri suite name.toUri = .ok name := by
  obtain rfl := suite_ofValues h
  have hspelled := spelling_ofValues h
  rw [ofUri_toUri_eq, hspelled, h]
  intro wire hwire
  apply hvalues
  rw [← hspelled]
  exact List.mem_map_of_mem hwire

/-- The values that are read from pieces of text which are not empty are not empty either. -/
theorem exists_values_of_pieces {texts : List Bytes} (htexts : ∀ text ∈ texts, text ≠ [])
    (h : texts.foldlM (fun name text => do name.push (← Uri.unescape text)) name = .ok longer) :
    ∃ values : List Bytes, (∀ value ∈ values, value ≠ []) ∧ values.foldlM push name = .ok longer := by
  induction texts generalizing name with
  | nil => exact ⟨[], nofun, h⟩
  | cons text texts ih =>
    rw [List.foldlM_cons] at h
    obtain ⟨next, hnext, hrest⟩ := ok_of_bind h
    obtain ⟨value, hvalue, hpush⟩ := ok_of_bind hnext
    obtain ⟨values, hvalues, hlater⟩ := ih (fun t ht => htexts t (List.mem_cons_of_mem text ht)) hrest
    have hfull := Uri.unescape_ne_nil hvalue (htexts text List.mem_cons_self)
    refine ⟨value :: values, List.forall_mem_cons.2 ⟨hfull, hvalues⟩, ?_⟩
    rw [List.foldlM_cons, hpush]
    exact hlater

/-- Whatever text is read as a name, the name has values that are not empty. -/
theorem exists_values_of_ofUri {text : String} (h : ofUri suite text = .ok name) :
    ∃ values, (∀ value ∈ values, value ≠ []) ∧ ofValues suite values = .ok name := by
  refine exists_values_of_pieces (fun piece hpiece => ?_) h
  simpa using (List.mem_filter.1 hpiece).2

/-- No text gives a chunk number where components are framed. -/
theorem chunk_of_ofUri (hframes : suite.framesComponents = true) {text : String}
    (h : ofUri suite text = .ok name) : name.chunk = none := by
  obtain ⟨values, -, hname⟩ := exists_values_of_ofUri h
  exact (spelling_pushAll hname).2.2 hframes

/-- Values that are not empty, at most as many as a name may have and each short enough for its frame
    if the suite has one, make a name whose text is read as this name; and whatever text is read as a
    name, so is what is written for this name. -/
theorem ofUri_toUri (suite : Suite) :
    (∀ values : List Bytes, values.length ≤ maxComponents → (∀ value ∈ values, value ≠ []) →
      (suite.framesComponents = true → ∀ value ∈ values, value.length ≤ 0xffff) →
      ∃ name, ofValues suite values = .ok name ∧ ofUri suite name.toUri = .ok name) ∧
    ∀ text name, ofUri suite text = .ok name → ofUri suite name.toUri = .ok name := by
  constructor
  · intro values hroom hvalues hshort
    obtain ⟨name, hname⟩ : ∃ name, ofValues suite values = .ok name := by
      refine exists_pushAll (by simpa [root, size] using hroom) fun hframes value hvalue => ?_
      exact Nat.lt_succ_of_le (hshort hframes value hvalue)
    exact ⟨name, hname, ofUri_toUri_of_ofValues hvalues hname⟩
  · intro text name hread
    obtain ⟨values, hvalues, hname⟩ := exists_values_of_ofUri hread
    exact ofUri_toUri_of_ofValues hvalues hname

/-- Slashes, percent signs, zero bytes and bytes that are no text come back, and so does what is read
    from a text that another writer escaped. -/
theorem escaped_bytes_return :
    let values : List Bytes := [[0x2f, 0x25], [0x00, 0xff], "chunk=7".toUTF8.data.toList]
    let text := "//a%2fb/%c3%bcx/"
    (∃ name, ofValues .ccnx values = .ok name ∧ ofUri .ccnx name.toUri = .ok name) ∧
      ∃ name, ofUri .ndn text = .ok name ∧ ofUri .ndn name.toUri = .ok name := by
  intro values text
  have hread : ofUri .ndn text = .ok ⟨.ndn, [[0x61, 0x2f, 0x62], [0xc3, 0xbc, 0x78]], none, .none⟩ := by
    rfl
  exact ⟨(ofUri_toUri .ccnx).1 values (by decide) (by decide) (by decide),
    _, hread, (ofUri_toUri .ndn).2 text _ hread⟩

/-! ## Written chunk names -/

variable {chunked : Name} {n : UInt32}

/-- The name of a chunk is read as the name with what its chunk component spells behind it. -/
theorem ofUri_toUri_withChunk (hvalues : ∀ value ∈ values, value ≠ [])
    (h : ofValues suite values = .ok name) {wire : Bytes} (hwire : Component.ofChunk suite n = .ok wire)
    (hchunk : name.withChunk n = .ok chunked) :
    ofUri suite chunked.toUri = name.push (Component.spelling suite wire) := by
  obtain rfl := suite_ofValues h
  obtain ⟨last, hlast, -, rfl⟩ := withChunk_eq_ok_iff.1 hchunk
  cases hwire.symm.trans hlast
  have hspelled : (name.components ++ [wire]).map (Component.spelling name.suite) =
      values ++ [Component.spelling name.suite wire] := by
    rw [List.map_append, spelling_ofValues h]
    rfl
  refine (@ofUri_toUri_eq ⟨name.suite, name.components ++ [wire], some n, name.flags⟩ ?_).trans ?_
  · intro w hw
    have hmem := List.mem_map_of_mem (f := Component.spelling name.suite) hw
    rw [hspelled] at hmem
    rcases List.mem_append.1 hmem with hvalue | hnumber
    · exact hvalues _ hvalue
    · rw [List.mem_singleton.1 hnumber]
      exact Component.spelling_ofChunk_ne_nil hwire
  · rw [ofValues] at h
    rw [ofValues, hspelled, List.foldlM_append, h]
    exact bind_pure (name.push (Component.spelling name.suite wire))

/-- The text for the name of a chunk is read as this name just if its suite does not frame components.
    Otherwise the words for the number become a value, and no chunk number is found. -/
theorem written_chunk_read_iff (hchunks : suite.hasChunks = true)
    (hvalues : ∀ value ∈ values, value ≠ []) (hname : ofValues suite values = .ok name)
    (hsize : name.size < maxComponents) (n : UInt32) :
    ∃ chunked, name.withChunk n = .ok chunked ∧
      (ofUri suite chunked.toUri = .ok chunked ↔ suite.framesComponents = false) ∧
      (suite.framesComponents = true → ∃ read, ofUri suite chunked.toUri = .ok read ∧
        name.push (Component.chunkWords n) = .ok read ∧ read.chunk = none) := by
  obtain rfl := suite_ofValues hname
  obtain ⟨wire, hwire, -⟩ := Component.exists_ofChunk hchunks n
  have hchunk := withChunk_eq_ok_iff.2 ⟨wire, hwire, hsize, rfl⟩
  have hread := ofUri_toUri_withChunk hvalues hname hwire hchunk
  rw [Component.spelling_ofChunk hwire] at hread
  refine ⟨_, hchunk, ?_⟩
  cases hframes : name.suite.framesComponents with
  | false =>
    have hvalue : Component.ofValue name.suite wire = .ok wire := by
      rw [Component.ofValue, hframes]
      rfl
    refine ⟨iff_of_true ?_ rfl, fun hframed => absurd hframed Bool.false_ne_true⟩
    rw [hread, hframes, if_neg Bool.false_ne_true, push_eq_ok_iff]
    refine ⟨wire, hvalue, hsize, ?_⟩
    rw [(Component.chunk?_ofChunk hwire).2]
    rfl
  | true =>
    have hwords : Component.ofValue name.suite (Component.chunkWords n) =
        .ok (Component.frame Component.segmentType (Component.chunkWords n)) := by
      rw [Component.ofValue, if_pos hframes]
      exact if_pos (Component.length_chunkWords_lt n)
    have hpush := push_eq_ok_iff.2 ⟨_, hwords, hsize, rfl⟩
    rw [hframes, if_pos rfl, hpush] at hread
    refine ⟨iff_of_false ?_ (by decide), fun _ => ⟨_, hread, hpush, chunk_of_ofUri hframes hread⟩⟩
    intro hsame
    cases chunk_of_ofUri hframes hsame

/-- In CCNx chunk 0 of `/a` is written `/a/chunk=0`, which is read as a name of two values. In CCNB it
    is written `/a/%00` and comes back. -/
theorem chunk_words_read_as_value :
    let framed : Name := ⟨.ccnx, [[0, 1, 0, 1, 97], [0, 16, 0, 1, 0]], some 0, .none⟩
    let plain : Name := ⟨.ccnb, [[97], [0]], some 0, .none⟩
    framed.toUri = "/a/chunk=0" ∧ ofUri .ccnx framed.toUri ≠ .ok framed ∧
      plain.toUri = "/a/%00" ∧ ofUri .ccnb plain.toUri = .ok plain := by
  intro framed plain
  let base : Name := ⟨.ccnx, [[0, 1, 0, 1, 97]], none, .none⟩
  let bare : Name := ⟨.ccnb, [[97]], none, .none⟩
  have hvalues : ∀ value ∈ ([[97]] : List Bytes), value ≠ [] := by decide
  have hbase : ofValues .ccnx [[97]] = .ok base := rfl
  have hbare : ofValues .ccnb [[97]] = .ok bare := rfl
  have hframed : base.withChunk 0 = .ok framed := rfl
  have hplain : bare.withChunk 0 = .ok plain := rfl
  obtain ⟨_, hchunk, hlost, -⟩ := written_chunk_read_iff rfl hvalues hbase (by decide) 0
  cases hchunk.symm.trans hframed
  obtain ⟨_, hchunk, hkept, -⟩ := written_chunk_read_iff rfl hvalues hbare (by decide) 0
  cases hchunk.symm.trans hplain
  exact ⟨rfl, fun h => absurd (hlost.1 h) (by decide), rfl, hkept.2 rfl⟩

end Name

end NameRelay
