-- SUMMARY: Names that can be told from the components that are written for them.
import NameRelay.Name.Basic
import NameRelay.Proofs.Wire.Elements

/-!
# Restoring names

A name is built from values, chunk numbers and flags. Its chunk number is always the one in its last
chunk component, so reading the components gives it back. Flags stand on the wire as markers, which
gives them back too, unless the name itself ends in a word that looks like a marker.
-/

namespace NameRelay

/-! ## Chunk components -/

namespace Component

/-- The type of a chunk component, in the suites that frame components. -/
def chunkType : Suite → Nat
  | .ccnx => ccnxChunkType
  | _ => ciscoChunkType

/-- The component has a frame that its suite knows. -/
def Framed (suite : Suite) (wire : Bytes) : Prop :=
  ∃ type value, wire = frame type value ∧ (type = segmentType ∨ type = chunkType suite) ∧
    value.length < 0x10000

/-- A component has the form of its suite. -/
def WellFormed (suite : Suite) (wire : Bytes) : Prop :=
  suite.framesComponents = true → Framed suite wire

/-- A component stands in a frame if its suite frames components, whatever the frame says. -/
def Enclosed (suite : Suite) (wire : Bytes) : Prop :=
  suite.framesComponents = true → ∃ type value, wire = frame type value ∧ type < 0x10000 ∧
    value.length < 0x10000

theorem WellFormed.enclosed {suite : Suite} {wire : Bytes} (h : WellFormed suite wire) :
    Enclosed suite wire := by
  intro hframes
  obtain ⟨type, value, hwire, htype, hlength⟩ := h hframes
  refine ⟨type, value, hwire, ?_, hlength⟩
  rcases htype with rfl | rfl
  · decide
  · cases suite <;> decide

theorem wellFormed_of_unframed {suite : Suite} (h : suite.framesComponents = false) (wire : Bytes) :
    WellFormed suite wire := by
  intro hframes
  rw [h] at hframes
  cases hframes

theorem wellFormed_ofValue {suite : Suite} {value wire : Bytes}
    (h : ofValue suite value = .ok wire) : WellFormed suite wire := by
  intro hframes
  rw [ofValue, if_pos hframes, frame?] at h
  split at h
  · rename_i hlength
    cases h
    exact ⟨segmentType, value, rfl, .inl rfl, hlength⟩
  · cases h

theorem drop_frame (type : Nat) (value : Bytes) : (frame type value).drop 4 = value := by
  have hlength : (bigEndian 2 type ++ bigEndian 2 value.length).length = 4 := by simp
  rw [frame, ← hlength, List.drop_left]

theorem length_frame (type : Nat) (value : Bytes) : (frame type value).length = 4 + value.length := by
  rw [frame, List.length_append, List.length_append, length_bigEndian, length_bigEndian]

theorem type?_frame {type : Nat} (h : type < 0x10000) (value : Bytes) :
    type? (frame type value) = some type := by
  simp only [frame, bigEndian, List.nil_append, List.cons_append, type?, UInt8.toNat_ofNat',
    Option.some.injEq]
  omega

/-- The number in a chunk component is the one it was made for. -/
theorem chunk?_ofChunk {suite : Suite} {chunk : UInt32} {wire : Bytes}
    (h : ofChunk suite chunk = .ok wire) :
    WellFormed suite wire ∧ chunk? suite wire = some chunk := by
  have hlt : chunk.toNat < 2 ^ 32 := chunk.toNat_lt
  have hdigits : ∀ digits : Bytes, chunkDigits? suite wire = some digits → digits.length ≤ 8 →
      digits.value = chunk.toNat → chunk? suite wire = some chunk := by
    intro digits hsome hlength hvalue
    simp only [chunk?, hsome, word?_of_word32 hlength hvalue, Option.bind_eq_bind, Option.bind_some]
    rw [UInt32.toNat_toUInt64]
    exact word32?_toNat chunk
  cases suite with
  | ccnb =>
    simp only [ofChunk, Except.ok.injEq] at h
    subst h
    refine ⟨wellFormed_of_unframed rfl _, hdigits (if chunk.toNat = 0 then [] else
      minimalBigEndian chunk.toNat) (by simp [chunkDigits?]) ?_ ?_⟩
    · split
      · exact Nat.zero_le 8
      · exact length_minimalBigEndian_le _
    · split
      · rename_i hzero
        rw [hzero]
        rfl
      · exact value_minimalBigEndian (by omega)
  | ndn =>
    simp only [ofChunk, Except.ok.injEq] at h
    subst h
    refine ⟨wellFormed_of_unframed rfl _, hdigits (bigEndian
      (if chunk.toNat < 0x100 then 1 else if chunk.toNat < 0x10000 then 2 else 4) chunk.toNat)
      (by simp [chunkDigits?]) ?_ ?_⟩
    · rw [length_bigEndian]
      repeat' split
      all_goals decide
    · apply Bytes.value_bigEndian_of_lt
      repeat' split
      all_goals omega
  | ccnx =>
    have hlength := length_minimalBigEndian_le chunk.toNat
    simp only [ofChunk, frame?] at h
    rw [if_pos (by omega)] at h
    cases h
    refine ⟨fun _ => ⟨ccnxChunkType, _, rfl, .inr rfl, by omega⟩,
      hdigits (minimalBigEndian chunk.toNat) ?_ hlength (value_minimalBigEndian (by omega))⟩
    simp only [chunkDigits?]
    rw [type?_frame (by decide), length_frame, drop_frame, if_pos ⟨rfl, Nat.le_add_right 4 _⟩]
  | cisco =>
    simp only [ofChunk, frame?, length_bigEndian] at h
    rw [if_pos (by decide)] at h
    cases h
    refine ⟨fun _ => ⟨ciscoChunkType, _, rfl, .inr rfl, by simp⟩,
      hdigits (bigEndian 4 chunk.toNat) ?_ (by simp)
        (Bytes.value_bigEndian_of_lt (by omega))⟩
    simp only [chunkDigits?]
    rw [type?_frame (by decide), length_frame, drop_frame, if_pos ⟨rfl, Nat.le_add_right 4 _⟩]
  | iot =>
    simp only [ofChunk] at h
    cases h

/-- Type and value of a framed component. -/
def item (wire : Bytes) : Nat × Bytes := ((type? wire).getD 0, wire.drop 4)

/-- A framed component is an element. -/
theorem element_item {suite : Suite} (hframes : suite.framesComponents = true) {wire : Bytes}
    (h : Enclosed suite wire) :
    Tlv.Form.fixed.element (item wire).1 (item wire).2 = wire ∧ (item wire).1 < 0x10000 ∧
      (item wire).2.length < 0x10000 := by
  obtain ⟨type, value, rfl, htype, hlength⟩ := h hframes
  rw [item, type?_frame htype, drop_frame]
  exact ⟨rfl, htype, hlength⟩

/-- Markers look like regular components. -/
theorem wellFormed_marker (suite : Suite) {word : Bytes} (h : word.length < 0x10000) :
    WellFormed suite (marker suite word) := by
  intro hframes
  rw [marker, if_pos hframes]
  exact ⟨segmentType, word, rfl, .inl rfl, h⟩

theorem value_marker (suite : Suite) (word : Bytes) : value suite (marker suite word) = word := by
  cases hframes : suite.framesComponents
  · simp [value, marker, hframes]
  · have hlength := length_frame segmentType word
    rw [marker, value, if_pos hframes, if_pos ⟨hframes, by omega⟩, drop_frame]

theorem chunk?_marker_nfn (suite : Suite) : chunk? suite (marker suite nfnWord) = none := by
  cases suite <;> decide

theorem chunk?_marker_thunk (suite : Suite) : chunk? suite (marker suite thunkWord) = none := by
  cases suite <;> decide

end Component

namespace Name

/-! ## Names as they are built -/

/-- The name was built from values, chunk numbers and flags. -/
inductive Built : Name → Prop where
  | root (suite : Suite) : Built (root suite)
  | push {name extended : Name} {value : Bytes} (h : Built name)
      (hpush : name.push value = .ok extended) : Built extended
  | withChunk {name extended : Name} {chunk : UInt32} (h : Built name)
      (hchunk : name.withChunk chunk = .ok extended) : Built extended
  | withFlags {name : Name} (h : Built name) (flags : FunctionFlags) : Built (name.withFlags flags)

theorem Built.pushAll {name extended : Name} (h : Built name) {values : List Bytes}
    (hvalues : values.foldlM Name.push name = .ok extended) : Built extended := by
  induction values generalizing name with
  | nil =>
    cases hvalues
    exact h
  | cons value values ih =>
    rw [List.foldlM_cons] at hvalues
    cases hpush : name.push value with
    | error e =>
      rw [hpush] at hvalues
      cases hvalues
    | ok next =>
      rw [hpush] at hvalues
      exact ih (h.push hpush) hvalues

theorem Built.ofValues {suite : Suite} {values : List Bytes} {name : Name}
    (h : Name.ofValues suite values = .ok name) : Built name := (Built.root suite).pushAll h

/-- The number in the last chunk component, if there is one. -/
def lastChunk (suite : Suite) (wires : List Bytes) : Option UInt32 :=
  wires.foldl (fun chunk wire => Component.chunk? suite wire <|> chunk) none

theorem lastChunk_concat (suite : Suite) (wires : List Bytes) (wire : Bytes) :
    lastChunk suite (wires ++ [wire]) =
      (Component.chunk? suite wire <|> lastChunk suite wires) := by
  simp only [lastChunk, List.foldl_append, List.foldl_cons, List.foldl_nil]

/-- The components of a name have the form of its suite and tell its chunk number. -/
structure WellFormed (name : Name) : Prop where
  components : ∀ wire ∈ name.components, Component.WellFormed name.suite wire
  chunk : name.chunk = lastChunk name.suite name.components

theorem WellFormed.pushWire {name extended : Name} {wire : Bytes} (h : name.WellFormed)
    (hwire : Component.WellFormed name.suite wire) (hpush : name.pushWire wire = .ok extended) :
    extended.WellFormed ∧ extended.suite = name.suite ∧
      extended.chunk = (Component.chunk? name.suite wire <|> name.chunk) := by
  unfold Name.pushWire at hpush
  split at hpush
  · cases hpush
    refine ⟨⟨?_, ?_⟩, rfl, rfl⟩
    · intro w hw
      rcases List.mem_append.1 hw with hold | hnew
      · exact h.components w hold
      · rw [List.mem_singleton.1 hnew]
        exact hwire
    · dsimp only
      rw [lastChunk_concat, h.chunk]
  · cases hpush

/-- Whatever is built is well formed. -/
theorem Built.wellFormed {name : Name} (h : Built name) : name.WellFormed := by
  induction h with
  | root suite => exact ⟨(fun _ hw => nomatch hw), rfl⟩
  | @push name extended value _ hpush ih =>
    unfold Name.push at hpush
    cases hwire : Component.ofValue name.suite value with
    | error e =>
      rw [hwire] at hpush
      cases hpush
    | ok wire =>
      rw [hwire] at hpush
      exact (ih.pushWire (Component.wellFormed_ofValue hwire) hpush).1
  | @withChunk name extended chunk _ hchunk ih =>
    unfold Name.withChunk at hchunk
    cases hwire : Component.ofChunk name.suite chunk with
    | error e =>
      rw [hwire] at hchunk
      cases hchunk
    | ok wire =>
      obtain ⟨hform, hnumber⟩ := Component.chunk?_ofChunk hwire
      cases hpush : name.pushWire wire with
      | error e =>
        simp only [hwire, hpush, bind, Except.bind] at hchunk
        cases hchunk
      | ok next =>
        obtain ⟨hnext, -, hsame⟩ := ih.pushWire hform hpush
        rw [hnumber] at hsame
        simp only [hwire, hpush, bind, Except.bind, pure, Except.pure, Except.ok.injEq] at hchunk
        subst hchunk
        exact ⟨hnext.components, hsame.symm.trans hnext.chunk⟩
  | withFlags _ flags ih => exact ⟨ih.components, ih.chunk⟩

/-! ## Reading components -/

/-- The name of components in wire form, as a reader collects them. -/
def ofWire (suite : Suite) (wires : List Bytes) : Name :=
  ⟨suite, wires, lastChunk suite wires, .none⟩

/-- Appends a component that was read. -/
def readWire (name : Name) (wire : Bytes) : Except DecodeError Name :=
  match name.pushWire wire with
  | .ok name => .ok name
  | .error _ => .error .tooManyComponents

theorem readWire_ofWire {suite : Suite} {wires : List Bytes} (h : wires.length < maxComponents)
    (wire : Bytes) : (ofWire suite wires).readWire wire = .ok (ofWire suite (wires ++ [wire])) := by
  have hsize : (ofWire suite wires).size < maxComponents := h
  rw [readWire, Name.pushWire, if_pos hsize, ofWire, ofWire, lastChunk_concat]

/-- At most 64 components are collected in order. -/
theorem foldlM_readWire {suite : Suite} {wires : List Bytes} (h : wires.length ≤ maxComponents) :
    wires.foldlM readWire (Name.root suite) = .ok (ofWire suite wires) := by
  have hfold : ∀ (rest done : List Bytes), (done ++ rest).length ≤ maxComponents →
      rest.foldlM readWire (ofWire suite done) = .ok (ofWire suite (done ++ rest)) := by
    intro rest
    induction rest with
    | nil =>
      intro done _
      rw [List.append_nil]
      rfl
    | cons wire rest ih =>
      intro done hlength
      have hroom : done.length < maxComponents := by
        rw [List.length_append, List.length_cons] at hlength
        omega
      rw [List.foldlM_cons, readWire_ofWire hroom]
      have hrest := ih (done ++ [wire]) (by simpa using hlength)
      rw [List.append_assoc, List.singleton_append] at hrest
      exact hrest
  exact hfold wires [] h

/-- A component that is appended is the last, and there was room for it. -/
theorem readWire_eq_ok {name longer : Name} {wire : Bytes} (h : name.readWire wire = .ok longer) :
    longer.suite = name.suite ∧ longer.components = name.components ++ [wire] ∧
      longer.size ≤ maxComponents := by
  rw [readWire, pushWire] at h
  by_cases hroom : name.size < maxComponents
  · rw [if_pos hroom] at h
    cases h
    refine ⟨rfl, rfl, ?_⟩
    rw [size, List.length_append]
    exact hroom
  · rw [if_neg hroom] at h
    cases h

/-- No more components are collected than a name may have. -/
theorem size_foldlM_readWire {wires : List Bytes} {name read : Name}
    (h : wires.foldlM readWire name = .ok read) (hsize : name.size ≤ maxComponents) :
    read.size = name.size + wires.length ∧ read.size ≤ maxComponents := by
  induction wires generalizing name with
  | nil =>
    cases h
    exact ⟨rfl, hsize⟩
  | cons wire wires ih =>
    rw [List.foldlM_cons] at h
    cases hwire : name.readWire wire with
    | error e =>
      rw [hwire] at h
      cases h
    | ok longer =>
      rw [hwire] at h
      obtain ⟨-, hlonger, hroom⟩ := readWire_eq_ok hwire
      obtain ⟨hread, hfits⟩ := ih h hroom
      refine ⟨?_, hfits⟩
      simp only [size, hlonger, List.length_append, List.length_singleton] at hread
      rw [size, hread, size, List.length_cons]
      omega

/-! ## Markers -/

/-- What is written for the name gives it back: its flags go together, markers included it has at
    most 64 components, and it does not end in a marker that its flags do not announce. -/
structure Restorable (name : Name) : Prop where
  built : name.Built
  flags : name.flags.thunk = true → name.flags.nfn = true
  room : name.wireComponents.length ≤ maxComponents
  noNfn : name.flags = .none → name.endsIn Component.nfnWord = false
  noThunk : name.flags = ⟨true, false⟩ → name.endsIn Component.thunkWord = false

theorem Restorable.length_components_le {name : Name} (h : name.Restorable) :
    name.components.length ≤ maxComponents := by
  have hroom := h.room
  rw [wireComponents, List.length_append] at hroom
  omega

/-- There are two markers at most. -/
theorem mem_markers {name : Name} {wire : Bytes} (h : wire ∈ name.markers) :
    ∃ word : Bytes, word.length ≤ 5 ∧ wire = Component.marker name.suite word := by
  unfold markers at h
  split at h
  · rcases List.mem_append.1 h with hthunk | hnfn
    · split at hthunk
      · exact ⟨Component.thunkWord, by decide, List.mem_singleton.1 hthunk⟩
      · cases hthunk
    · exact ⟨Component.nfnWord, by decide, List.mem_singleton.1 hnfn⟩
  · cases h

/-- Markers are short, so they do not matter to a bound on the components. -/
theorem length_lt_of_mem_wireComponents {name : Name} {n : Nat} (hn : 9 < n)
    (h : ∀ wire ∈ name.components, wire.length < n) : ∀ wire ∈ name.wireComponents,
      wire.length < n := by
  intro wire hwire
  rcases List.mem_append.1 hwire with hown | hmark
  · exact h wire hown
  · obtain ⟨word, hword, rfl⟩ := mem_markers hmark
    unfold Component.marker
    split
    · rw [Component.length_frame]
      omega
    · omega

theorem lastChunk_wireComponents (name : Name) :
    lastChunk name.suite name.wireComponents = lastChunk name.suite name.components := by
  unfold wireComponents markers
  split
  · split
    · rw [← List.append_assoc, lastChunk_concat, lastChunk_concat, Component.chunk?_marker_nfn,
        Component.chunk?_marker_thunk]
      rfl
    · rw [List.nil_append, lastChunk_concat, Component.chunk?_marker_nfn]
      rfl
  · rw [List.append_nil]

theorem endsIn_marker (suite : Suite) (wires : List Bytes) (word : Bytes) (chunk : Option UInt32)
    (flags : FunctionFlags) :
    (⟨suite, wires ++ [Component.marker suite word], chunk, flags⟩ : Name).endsIn word = true := by
  simp [endsIn, Component.value_marker]

/-- Stripping the markers leaves the components and the flags that the markers stand for. -/
theorem stripMarkers_ofWire {name : Name}
    (hnfn : name.flags.nfn = false → name.endsIn Component.nfnWord = false)
    (hthunk : name.flags = ⟨true, false⟩ → name.endsIn Component.thunkWord = false) :
    (ofWire name.suite name.wireComponents).stripMarkers =
      ⟨name.suite, name.components, lastChunk name.suite name.components,
        if name.flags.nfn then name.flags else .none⟩ := by
  rw [ofWire, name.lastChunk_wireComponents]
  obtain ⟨suite, components, chunk, ⟨nfn, thunk⟩⟩ := name
  dsimp only
  generalize lastChunk suite components = last
  cases nfn with
  | false =>
    have hends : (⟨suite, components, last, .none⟩ : Name).endsIn Component.nfnWord = false :=
      hnfn rfl
    simp only [wireComponents, markers, Bool.false_eq_true, if_false, List.append_nil,
      stripMarkers, hends]
  | true =>
    cases thunk with
    | false =>
      have hends : (⟨suite, components, last, ⟨true, false⟩⟩ : Name).endsIn Component.thunkWord =
          false := hthunk rfl
      have hmarked := endsIn_marker suite components Component.nfnWord last ⟨false, false⟩
      simp only [wireComponents, markers, if_true, Bool.false_eq_true, if_false, List.nil_append,
        stripMarkers, hmarked, List.dropLast_concat, FunctionFlags.none, hends]
    | true =>
      have hmarked := endsIn_marker suite (components ++ [Component.marker suite Component.thunkWord])
        Component.nfnWord last ⟨false, false⟩
      have hpromised := endsIn_marker suite components Component.thunkWord last ⟨true, false⟩
      simp only [wireComponents, markers, if_true, stripMarkers, ← List.append_assoc, hmarked,
        List.dropLast_concat, FunctionFlags.none, hpromised]

/-- Stripping the markers gives a restorable name back. -/
theorem Restorable.stripMarkers_eq {name : Name} (h : name.Restorable) :
    (ofWire name.suite name.wireComponents).stripMarkers = name := by
  have hflags : name.flags.nfn = false → name.flags = .none := by
    intro hnfn
    cases hf : name.flags with
    | mk nfn thunk =>
      have hthunk := h.flags
      rw [hf] at hnfn hthunk
      cases hnfn
      cases thunk with
      | false => rfl
      | true => cases hthunk rfl
  rw [stripMarkers_ofWire (fun hnfn => h.noNfn (hflags hnfn)) h.noThunk, ← h.built.wellFormed.chunk]
  split
  · rfl
  · rename_i hnfn
    rw [← hflags (Bool.not_eq_true _ ▸ hnfn)]

/-- What a reader makes of the components that are written for the name. -/
def reread (name : Name) : Except DecodeError Name := do
  let read ← name.wireComponents.foldlM readWire (root name.suite)
  return read.stripMarkers

theorem Restorable.reread_eq {name : Name} (h : name.Restorable) : name.reread = .ok name := by
  rw [reread, foldlM_readWire h.room]
  exact congrArg Except.ok h.stripMarkers_eq

/-- A name is reread just if it has, markers included, no more components than a name may have. -/
theorem exists_reread_iff {name : Name} :
    (∃ read, name.reread = .ok read) ↔ name.wireComponents.length ≤ maxComponents := by
  constructor
  · rintro ⟨read, h⟩
    cases hfold : name.wireComponents.foldlM readWire (root name.suite) with
    | error e =>
      rw [reread, hfold] at h
      cases h
    | ok collected =>
      obtain ⟨hsize, hfits⟩ := size_foldlM_readWire hfold (Nat.zero_le _)
      rwa [hsize, show (root name.suite).size = 0 from rfl, Nat.zero_add] at hfits
  · intro h
    rw [reread, foldlM_readWire h]
    exact ⟨_, rfl⟩

/-- What is reread has the same components, if they do not end in a marker of their own. -/
theorem components_of_reread {name read : Name} (h : name.reread = .ok read)
    (hnfn : name.endsIn Component.nfnWord = false)
    (hthunk : name.endsIn Component.thunkWord = false) :
    read.suite = name.suite ∧ read.components = name.components := by
  rw [reread, foldlM_readWire (exists_reread_iff.1 ⟨read, h⟩)] at h
  cases h
  rw [stripMarkers_ofWire (fun _ => hnfn) fun _ => hthunk]
  exact ⟨rfl, rfl⟩

/-- A reader that takes one component from each element rereads the name from the elements that were
    written for its components. -/
theorem read_elements {name : Name} {f : Tlv.Form} {item : Bytes → Nat × Bytes}
    {step : Name → Tlv.Element → Except DecodeError Name}
    (hstep : ∀ (read : Name) (pos : Nat), ∀ wire ∈ name.wireComponents,
      step read (f.place pos (item wire).1 (item wire).2) = read.readWire wire)
    (hreadable : f.Readable (name.wireComponents.map item)) (pos : Nat) :
    (do
      let read ← (f.head.elements ⟨pos, f.elements (name.wireComponents.map item)⟩).foldM
        (Name.root name.suite) step
      return read.stripMarkers) = name.reread := by
  have hfold : ∀ (wires : List Bytes) (read : Name) (pos : Nat),
      (∀ wire ∈ wires, wire ∈ name.wireComponents) →
      (f.places pos (wires.map item)).foldlM step read = wires.foldlM readWire read := by
    intro wires
    induction wires with
    | nil => intro read pos _; rfl
    | cons wire wires ih =>
      intro read pos hmem
      rw [List.map_cons, Tlv.Form.foldlM_places_cons, List.foldlM_cons,
        hstep read pos wire (hmem wire List.mem_cons_self)]
      exact bind_congr fun next => ih next _ fun w hw => hmem w (List.mem_cons_of_mem wire hw)
  rw [f.foldM_elements hreadable, hfold name.wireComponents _ _ fun _ hw => hw, reread]

/-- If the components of a name have the form of its suite, all that is written for it has. -/
theorem wellFormed_wireComponents {name : Name}
    (h : ∀ wire ∈ name.components, Component.WellFormed name.suite wire) :
    ∀ wire ∈ name.wireComponents, Component.WellFormed name.suite wire := by
  intro wire hwire
  rcases List.mem_append.1 hwire with hown | hmark
  · exact h wire hown
  · obtain ⟨word, hword, rfl⟩ := mem_markers hmark
    exact Component.wellFormed_marker _ (by omega)

/-- All components of the name stand in frames, if its suite frames them. -/
def Enclosed (name : Name) : Prop := ∀ wire ∈ name.components, Component.Enclosed name.suite wire

theorem Built.enclosed {name : Name} (h : name.Built) : name.Enclosed :=
  fun wire hwire => (h.wellFormed.components wire hwire).enclosed

theorem Enclosed.wireComponents {name : Name} (h : name.Enclosed) :
    ∀ wire ∈ name.wireComponents, Component.Enclosed name.suite wire := by
  intro wire hwire
  rcases List.mem_append.1 hwire with hown | hmark
  · exact h wire hown
  · obtain ⟨word, hword, rfl⟩ := mem_markers hmark
    exact (Component.wellFormed_marker _ (by omega)).enclosed

/-- Stripping the markers adds no component. -/
theorem mem_of_mem_stripMarkers {name : Name} {wire : Bytes}
    (h : wire ∈ name.stripMarkers.components) : wire ∈ name.components := by
  rw [stripMarkers] at h
  split at h
  · dsimp only at h
    split at h
    · exact List.dropLast_subset _ (List.dropLast_subset _ h)
    · exact List.dropLast_subset _ h
  · exact h

/-- The components of a name in a suite that frames them are elements. -/
theorem Enclosed.elements_items {name : Name} (h : name.Enclosed)
    (hframes : name.suite.framesComponents = true) :
    Tlv.Form.fixed.elements (name.wireComponents.map Component.item) =
        name.wireComponents.flatten ∧
      Tlv.Form.fixed.Readable (name.wireComponents.map Component.item) := by
  have hframed := fun wire hwire => Component.element_item hframes (h.wireComponents wire hwire)
  constructor
  · rw [Tlv.Form.elements_map, List.flatMap_def,
      List.map_congr_left fun wire hwire => (hframed wire hwire).1, List.map_id']
  · intro i hi
    obtain ⟨wire, hwire, rfl⟩ := List.mem_map.1 hi
    exact (hframed wire hwire).2

end Name

end NameRelay
