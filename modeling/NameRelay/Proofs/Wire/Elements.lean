-- SUMMARY: Elements that were written read back in order, each with its value in its place.
import NameRelay.Proofs.Wire.Writing
import NameRelay.Wire.Tlv

/-!
# Elements that read back

A `Form` is one of the three ways to write the head of an element, together with the facts that the
writer and the reader of the head agree. From these alone it follows that a sequence of elements
reads back as it was written. Values also know where they stand: `Cursor.In` says that a cursor is a
part of a buffer at its place, and then its span gives back its bytes.
-/

namespace NameRelay

/-! ## Places -/

/-- The cursor is a part of the buffer, at its place. -/
def Cursor.In (c : Cursor) (whole : Bytes) : Prop :=
  ∃ front back, whole = front ++ c.rest ++ back ∧ c.pos = front.length

namespace Cursor

theorem span_of {c : Cursor} {whole : Bytes} (h : c.In whole) : c.span.of whole = c.rest := by
  obtain ⟨front, back, rfl, hpos⟩ := h
  have hlength : c.pos + c.rest.length - c.pos = c.rest.length := by omega
  rw [span, Span.of, hlength, hpos, List.append_assoc, List.drop_left, List.take_left]

/-- The first part of a cursor is in its place. -/
theorem In.take {pos : Nat} {as bs whole : Bytes} (h : (⟨pos, as ++ bs⟩ : Cursor).In whole) :
    (⟨pos, as⟩ : Cursor).In whole := by
  obtain ⟨front, back, rfl, hpos⟩ := h
  exact ⟨front, bs ++ back, by simp, hpos⟩

/-- What is behind the first part of a cursor is in its place. -/
theorem In.drop {pos : Nat} {as bs whole : Bytes} (h : (⟨pos, as ++ bs⟩ : Cursor).In whole) :
    (⟨pos + as.length, bs⟩ : Cursor).In whole := by
  obtain ⟨front, back, rfl, hpos⟩ := h
  refine ⟨front ++ as, back, by simp, ?_⟩
  rw [List.length_append, ← hpos]

/-- Bytes in front of the buffer move the place. -/
theorem In.behind {c : Cursor} {whole : Bytes} (h : c.In whole) (front : Bytes) :
    (⟨front.length + c.pos, c.rest⟩ : Cursor).In (front ++ whole) := by
  obtain ⟨before, back, rfl, hpos⟩ := h
  refine ⟨front ++ before, back, by simp, ?_⟩
  rw [List.length_append, hpos]

theorem span_shift_of {c : Cursor} {whole : Bytes} (h : c.In whole) (front : Bytes) :
    (c.span.shift front.length).of (front ++ whole) = c.rest := by
  have hspan : (⟨front.length + c.pos, c.rest⟩ : Cursor).span = c.span.shift front.length := by
    simp only [span, Span.shift, Span.mk.injEq]
    omega
  rw [← hspan]
  exact span_of (h.behind front)

end Cursor

namespace Tlv

/-! ## Sequences -/

namespace Head

variable {head : Head} {c next : Cursor} {e : Element} {fault : DecodeError}

theorem elements_of_isEmpty (h : c.isEmpty) : head.elements c = ⟨[], none⟩ := by
  rw [elements, if_pos h]

theorem elements_of_error (hne : ¬c.isEmpty) (h : head.element c = .error fault) :
    head.elements c = ⟨[], some fault⟩ := by
  rw [elements, if_neg hne]
  split
  case h_1 other hother =>
    cases h.symm.trans hother
    rfl
  case h_2 hread => cases h.symm.trans hread

/-- Behind an element the sequence goes on. -/
theorem elements_of_element (h : head.element c = .ok (e, next)) :
    head.elements c = ⟨e :: (head.elements next).items, (head.elements next).fault⟩ := by
  have hne : ¬c.isEmpty := by
    rw [Cursor.isEmpty, List.isEmpty_iff]
    exact List.ne_nil_of_length_pos (Nat.lt_of_le_of_lt (Nat.zero_le _) (head.element_lt h))
  rw [elements, if_neg hne]
  split
  case h_1 hfault => cases h.symm.trans hfault
  case h_2 other after hother =>
    cases h.symm.trans hother
    rfl

end Head

/-! ## Forms -/

/-- A way to write heads that can be read. -/
structure Form where
  head : Head
  write : Nat → Nat → Write Unit
  /-- The bytes of a head with this type and length. -/
  bytes : Nat → Nat → Bytes
  /-- Whether the writer accepts a length. -/
  fits : Nat → Prop
  /-- Types and lengths below the limit read back. -/
  limit : Nat
  puts : ∀ type length, Write.Puts (write type length) () (bytes type length) (fits length)
  reads : ∀ {type length : Nat}, type < limit → length < limit → ∀ pos rest,
    head.read ⟨pos, bytes type length ++ rest⟩ =
      .ok ((type, length), ⟨pos + (bytes type length).length, rest⟩)

namespace Form

variable (f : Form)

/-- The bytes of an element. -/
def element (type : Nat) (value : Bytes) : Bytes := f.bytes type value.length ++ value

/-- The bytes of elements in order. -/
def elements (items : List (Nat × Bytes)) : Bytes := items.flatMap fun i => f.element i.1 i.2

/-- The element that is read where its bytes begin at `pos`. -/
def place (pos type : Nat) (value : Bytes) : Element :=
  ⟨type, ⟨pos + (f.bytes type value.length).length, value⟩, f.element type value⟩

/-- The elements that are read where their bytes begin at `pos`. -/
def places (pos : Nat) : List (Nat × Bytes) → List Element
  | [] => []
  | i :: rest => f.place pos i.1 i.2 :: places (pos + (f.element i.1 i.2).length) rest

/-- Type and length of every element are below the limit. -/
def Readable (items : List (Nat × Bytes)) : Prop :=
  ∀ i ∈ items, i.1 < f.limit ∧ i.2.length < f.limit

@[simp] theorem place_type (pos type : Nat) (value : Bytes) : (f.place pos type value).type = type :=
  rfl

@[simp] theorem place_rest (pos type : Nat) (value : Bytes) :
    (f.place pos type value).value.rest = value := rfl

@[simp] theorem elements_nil : f.elements [] = [] := rfl

@[simp] theorem elements_cons (i : Nat × Bytes) (items : List (Nat × Bytes)) :
    f.elements (i :: items) = f.element i.1 i.2 ++ f.elements items := rfl

theorem elements_map (item : Bytes → Nat × Bytes) (wires : List Bytes) :
    f.elements (wires.map item) = wires.flatMap fun w => f.element (item w).1 (item w).2 := by
  rw [elements, List.flatMap_map]

theorem elements_append (items more : List (Nat × Bytes)) :
    f.elements (items ++ more) = f.elements items ++ f.elements more := List.flatMap_append

theorem length_element (type : Nat) (value : Bytes) :
    (f.element type value).length = (f.bytes type value.length).length + value.length :=
  List.length_append

theorem value_lt_of_element_lt {type n : Nat} {value : Bytes}
    (h : (f.element type value).length < n) : value.length < n := by
  rw [length_element] at h
  omega

/-- No value is longer than all elements together. -/
theorem length_le_elements {items : List (Nat × Bytes)} {i : Nat × Bytes} (h : i ∈ items) :
    i.2.length ≤ (f.elements items).length := by
  induction items with
  | nil => cases h
  | cons j items ih =>
    rw [elements_cons, List.length_append, length_element]
    rcases List.mem_cons.1 h with rfl | hin
    · omega
    · have hrest := ih hin
      omega

/-- Elements that are short enough together can be read if their types can. -/
theorem readable_of_length {items : List (Nat × Bytes)} (htypes : ∀ i ∈ items, i.1 < f.limit)
    (hlength : (f.elements items).length < f.limit) : f.Readable items :=
  fun i hi => ⟨htypes i hi, Nat.lt_of_le_of_lt (f.length_le_elements hi) hlength⟩

/-! ## Reading what was written -/

theorem read_element {type : Nat} {value : Bytes} (htype : type < f.limit)
    (hlength : value.length < f.limit) (pos : Nat) (rest : Bytes) :
    f.head.element ⟨pos, f.element type value ++ rest⟩ =
      .ok (f.place pos type value, ⟨pos + (f.element type value).length, rest⟩) := by
  have hhead := f.reads htype hlength pos (value ++ rest)
  have hroom : value.length ≤ (value ++ rest).length := by
    rw [List.length_append]
    omega
  have hall : pos + (f.bytes type value.length).length + value.length - pos =
      (f.element type value).length := by
    rw [length_element]
    omega
  have hend : pos + (f.bytes type value.length).length + value.length =
      pos + (f.element type value).length := by
    rw [length_element]
    omega
  simp only [Head.element, element, List.append_assoc, hhead, bind, Except.bind, Cursor.split,
    Cursor.remaining, hroom, if_true, List.take_left, Cursor.advance, List.drop_left, pure,
    Except.pure, place]
  congr 3
  · rw [hall, ← List.append_assoc]
    exact List.take_left

theorem element_ne_nil {type : Nat} {value : Bytes} (htype : type < f.limit)
    (hlength : value.length < f.limit) : f.element type value ≠ [] := by
  intro hnil
  have hshrinks := f.head.shrinks (f.reads htype hlength 0 [])
  have hbytes : f.bytes type value.length = [] := (List.append_eq_nil_iff.1 hnil).1
  rw [hbytes] at hshrinks
  exact absurd hshrinks (Nat.lt_irrefl _)

theorem eq_nil_of_elements {items : List (Nat × Bytes)} (h : f.Readable items)
    (hnil : f.elements items = []) : items = [] := by
  cases items with
  | nil => rfl
  | cons i items =>
    obtain ⟨htype, hlength⟩ := h i List.mem_cons_self
    exact absurd (List.append_eq_nil_iff.1 hnil).1 (f.element_ne_nil htype hlength)

/-- Elements that were written read back. -/
theorem read_elements {items : List (Nat × Bytes)} (h : f.Readable items) (pos : Nat) :
    f.head.elements ⟨pos, f.elements items⟩ = ⟨f.places pos items, none⟩ := by
  induction items generalizing pos with
  | nil => exact Head.elements_of_isEmpty rfl
  | cons i items ih =>
    obtain ⟨htype, hlength⟩ := h i List.mem_cons_self
    have hrest := ih (fun j hj => h j (List.mem_cons_of_mem i hj)) (pos + (f.element i.1 i.2).length)
    rw [elements_cons, Head.elements_of_element (f.read_element htype hlength pos _), hrest]
    rfl

theorem foldlM_places_cons {σ : Type} (step : σ → Element → Except DecodeError σ) (s : σ)
    (pos : Nat) (i : Nat × Bytes) (items : List (Nat × Bytes)) :
    (f.places pos (i :: items)).foldlM step s =
      step s (f.place pos i.1 i.2) >>=
        (f.places (pos + (f.element i.1 i.2).length) items).foldlM step := by
  rw [places, List.foldlM_cons]

theorem places_append (pos : Nat) (items more : List (Nat × Bytes)) :
    f.places pos (items ++ more) =
      f.places pos items ++ f.places (pos + (f.elements items).length) more := by
  induction items generalizing pos with
  | nil => rfl
  | cons i items ih =>
    rw [List.cons_append, places, ih, places, elements_cons, List.length_append, List.cons_append,
      Nat.add_assoc]

theorem foldlM_places_append {σ : Type} (step : σ → Element → Except DecodeError σ) (s : σ)
    (pos : Nat) (items more : List (Nat × Bytes)) :
    (f.places pos (items ++ more)).foldlM step s =
      (f.places pos items).foldlM step s >>=
        (f.places (pos + (f.elements items).length) more).foldlM step := by
  rw [places_append, List.foldlM_append]

/-- A value that has a 32-bit number reads as it. -/
theorem word32?_place (pos type : Nat) {value : Bytes} {n : UInt32} (hlength : value.length ≤ 8)
    (hvalue : value.value = n.toNat) : (f.place pos type value).word32? = .ok (some n) := by
  rw [Element.word32?, Element.word, place_rest, word?_of_word32 hlength hvalue]
  simp only [Except.map, UInt32.toNat_toUInt64, word32?_toNat]

/-- The element that may be there. -/
def optional {γ : Type} (type : Nat) (out : γ → Bytes) (value : Option γ) : List (Nat × Bytes) :=
  (value.map fun c => (type, out c)).toList

theorem mem_optional {γ : Type} {type : Nat} {out : γ → Bytes} {value : Option γ}
    {i : Nat × Bytes} (h : i ∈ optional type out value) : i.1 = type := by
  cases value with
  | none => cases h
  | some c => rw [List.mem_singleton.1 h]

theorem elements_optional {γ : Type} (type : Nat) (out : γ → Bytes) (value : Option γ) :
    f.elements (optional type out value) = value.elim [] fun c => f.element type (out c) := by
  cases value with
  | none => rfl
  | some c => exact List.append_nil _

theorem foldlM_optional {σ γ : Type} {step : σ → Element → Except DecodeError σ} {type : Nat}
    {out : γ → Bytes} (update : σ → γ → σ)
    (h : ∀ s c pos, step s (f.place pos type (out c)) = .ok (update s c)) (s : σ) (pos : Nat)
    (value : Option γ) :
    (f.places pos (optional type out value)).foldlM step s = .ok (value.elim s (update s)) := by
  cases value with
  | none => rfl
  | some c =>
    rw [optional, Option.map_some, Option.toList_some, foldlM_places_cons, h]
    rfl

/-- Reading elements that were written is folding over where they are. -/
theorem foldM_elements {σ : Type} {items : List (Nat × Bytes)} (h : f.Readable items) (pos : Nat)
    (s : σ) (step : σ → Element → Except DecodeError σ) :
    (f.head.elements ⟨pos, f.elements items⟩).foldM s step = (f.places pos items).foldlM step s := by
  rw [f.read_elements h, Elements.foldM]
  exact bind_pure _

/-- Reading a single element is one step. -/
theorem foldM_single {σ : Type} {i : Nat × Bytes} (htype : i.1 < f.limit)
    (hlength : i.2.length < f.limit) (pos : Nat) (s : σ)
    (step : σ → Element → Except DecodeError σ) :
    (f.head.elements ⟨pos, f.element i.1 i.2⟩).foldM s step = step s (f.place pos i.1 i.2) := by
  have hreadable : f.Readable [i] := by
    intro j hj
    rw [List.mem_singleton.1 hj]
    exact ⟨htype, hlength⟩
  have hfold := f.foldM_elements hreadable pos s step
  rw [elements_cons, elements_nil, List.append_nil] at hfold
  rw [hfold, foldlM_places_cons]
  exact bind_pure _

/-- The value of an element is behind its head. -/
theorem value_in_element (type : Nat) (value : Bytes) :
    (⟨(f.bytes type value.length).length, value⟩ : Cursor).In (f.element type value) :=
  ⟨f.bytes type value.length, [], (List.append_nil _).symm, rfl⟩

/-- Every value is in its place if the elements are. -/
theorem value_in_of_mem_places {items : List (Nat × Bytes)} {whole : Bytes} {pos : Nat}
    (hin : (⟨pos, f.elements items⟩ : Cursor).In whole) {e : Element}
    (h : e ∈ f.places pos items) : e.value.In whole := by
  induction items generalizing pos with
  | nil => cases h
  | cons i items ih =>
    obtain ⟨front, back, hwhole, hpos⟩ := hin
    dsimp only at hpos
    rcases List.mem_cons.1 h with rfl | hrest
    · refine ⟨front ++ f.bytes i.1 i.2.length, f.elements items ++ back, ?_, ?_⟩
      · rw [hwhole, elements_cons, element]
        simp only [place, List.append_assoc]
      · simp only [place, List.length_append, hpos]
    · apply ih _ hrest
      refine ⟨front ++ f.element i.1 i.2, back, ?_, ?_⟩
      · rw [hwhole, elements_cons]
        simp only [List.append_assoc]
      · simp only [List.length_append, hpos]

/-- The value of an element is in its place if the element is. -/
theorem value_in_of_in {type pos : Nat} {value whole : Bytes}
    (h : (⟨pos, f.element type value⟩ : Cursor).In whole) : (f.place pos type value).value.In whole := by
  have hsingle : (⟨pos, f.elements [(type, value)]⟩ : Cursor).In whole := by
    rwa [elements_cons, elements_nil, List.append_nil]
  exact f.value_in_of_mem_places hsingle List.mem_cons_self

/-! ## Writing -/

/-- An element is written behind its value. -/
theorem puts_element (type : Nat) {inner : Write Unit} {bs : Bytes} {p : Prop}
    (h : Write.Puts inner () bs p) :
    Write.Puts (do f.write type (← Write.measured inner)) () (f.element type bs)
      (p ∧ f.fits bs.length) := h.measured.bind (f.puts type bs.length)

/-! ## The three forms -/

/-- Type and length as two 16-bit numbers. -/
def fixed : Form where
  head := .fixed
  write := Write.head16
  bytes type length := bigEndian 2 type ++ bigEndian 2 length
  fits length := length < 0x10000
  limit := 0x10000
  puts := Write.puts_head16
  reads := by
    intro type length htype hlength pos rest
    simp only [Head.fixed, Head.readPair, List.append_assoc, word16_bigEndian htype,
      word16_bigEndian hlength, bind, Except.bind, pure, Except.pure, List.length_append,
      length_bigEndian]

@[simp] theorem head_fixed : fixed.head = Head.fixed := rfl

@[simp] theorem limit_fixed : fixed.limit = 0x10000 := rfl

@[simp] theorem length_bytes_fixed (type length : Nat) : (fixed.bytes type length).length = 4 := by
  simp [fixed]

/-- The bytes of two numbers of variable length. -/
def flexibleBytes (type length : Nat) : Bytes := varNumberBytes type ++ varNumberBytes length

theorem read_flexibleBytes {type length : Nat} (htype : type < 2 ^ 64) (hlength : length < 2 ^ 64)
    (pos : Nat) (rest : Bytes) :
    Head.flexible.read ⟨pos, flexibleBytes type length ++ rest⟩ =
      .ok ((type, length), ⟨pos + (flexibleBytes type length).length, rest⟩) := by
  simp only [Head.flexible, Head.readPair, flexibleBytes, List.append_assoc,
    varNumber_varNumberBytes htype, varNumber_varNumberBytes hlength, bind, Except.bind, pure,
    Except.pure, List.length_append, Nat.add_assoc]

theorem puts_writeHead (type length : Nat) :
    Write.Puts (writeHead type length) () (flexibleBytes type length) True :=
  ((Write.puts_varNumber length).andThen (Write.puts_varNumber type)).congr rfl (by simp)

/-- Type and length as two numbers of variable length. -/
def flexible : Form where
  head := .flexible
  write := writeHead
  bytes := flexibleBytes
  fits _ := True
  limit := 2 ^ 64
  puts := puts_writeHead
  reads := read_flexibleBytes

@[simp] theorem head_flexible : flexible.head = Head.flexible := rfl

@[simp] theorem limit_flexible : flexible.limit = 2 ^ 64 := rfl

/-- The bytes of a compact head. -/
def compactBytes (type length : Nat) : Bytes :=
  if type < 4 ∧ length < 64 ∧ (type, length) ≠ (0, 0) ∧ (type, length) ≠ (2, 0) then
    [UInt8.ofNat (type * 64 + length)]
  else
    0 :: flexibleBytes type length

theorem puts_writeCompactHead (type length : Nat) :
    Write.Puts (writeCompactHead type length) () (compactBytes type length) True := by
  unfold writeCompactHead compactBytes
  split
  · exact Write.puts_byte _
  · exact ((puts_writeHead type length).andThen (Write.puts_byte 0)).congr rfl (by simp)

theorem read_compactBytes {type length : Nat} (htype : type < 2 ^ 64) (hlength : length < 2 ^ 64)
    (pos : Nat) (rest : Bytes) :
    Head.compact.read ⟨pos, compactBytes type length ++ rest⟩ =
      .ok ((type, length), ⟨pos + (compactBytes type length).length, rest⟩) := by
  unfold compactBytes
  split
  · rename_i h
    obtain ⟨ht, hl, hzero, -⟩ := h
    have hbyte : (UInt8.ofNat (type * 64 + length)).toNat = type * 64 + length := by
      rw [UInt8.toNat_ofNat']
      omega
    have hne : UInt8.ofNat (type * 64 + length) ≠ 0 := by
      intro heq
      have hnat := congrArg UInt8.toNat heq
      rw [hbyte, UInt8.toNat_zero] at hnat
      apply hzero
      rw [Prod.mk.injEq]
      omega
    have htop : (type * 64 + length) / 64 = type := by omega
    have hlow : (type * 64 + length) % 64 = length := by omega
    simp only [Head.compact, Head.readCompact, List.singleton_append, Cursor.byte, bind,
      Except.bind, hne, ne_eq, not_false_eq_true, if_true, pure, Except.pure, hbyte, htop, hlow,
      List.length_singleton]
  · have hlong := read_flexibleBytes htype hlength (pos + 1) rest
    simp only [Head.compact, Head.readCompact, List.cons_append, Cursor.byte, bind, Except.bind,
      ne_eq, not_true_eq_false, if_false, hlong, List.length_cons]
    congr 3
    omega

/-- One byte where type and length fit it. -/
def compact : Form where
  head := .compact
  write := writeCompactHead
  bytes := compactBytes
  fits _ := True
  limit := 2 ^ 64
  puts := puts_writeCompactHead
  reads := read_compactBytes

@[simp] theorem head_compact : compact.head = Head.compact := rfl

@[simp] theorem limit_compact : compact.limit = 2 ^ 64 := rfl

end Form

end Tlv

end NameRelay
