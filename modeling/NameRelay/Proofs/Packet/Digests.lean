-- SUMMARY: An interest that ends in the digest of a content finds it, but not where components are framed.
import NameRelay.Proofs.Format.Rereading
import NameRelay.Proofs.Name.Chunks

/-!
# Asking by digest

Every content has one component more than its name shows, the digest of its bytes. Who knows the
digest can append it to the name and so ask for this content and no other of that name.

Three suites take components as they are, and there this works. The fourth frames a component when it
is appended, but looks for the digest without a frame, so that nothing is ever found. The only other
limit is that the component for the digest needs room in the name, beside the markers.
-/

namespace NameRelay

/-! ## Appending the digest -/

theorem Component.ofValue_eq_ok (suite : Suite) {value : Bytes} (h : value.length < 0x10000) :
    ofValue suite value = .ok (marker suite value) := by
  rw [ofValue, marker, frame?, if_pos h]
  split <;> rfl

/-- Where components are framed, a component is longer than its value. -/
theorem Component.marker_eq_iff (suite : Suite) {value other : Bytes}
    (h : other.length = value.length) :
    other = marker suite value ↔ suite.framesComponents = false ∧ other = value := by
  rw [marker]
  split
  · rename_i hframes
    refine iff_of_false ?_ (by simp [hframes])
    rintro rfl
    rw [length_frame] at h
    omega
  · rename_i hframes
    simp [hframes]

/-- `asked` is `name` with one component more. -/
structure Name.Extends (asked name : Name) (last : Bytes) : Prop where
  suite : asked.suite = name.suite
  components : asked.components = name.components ++ [last]
  flags : asked.flags = name.flags
  room : asked.size ≤ maxComponents

namespace Name

variable {name asked : Name} {last value : Bytes}

/-- A name with room takes any value as its last component. -/
theorem push_extends (hroom : name.size < maxComponents) (hshort : value.length < 0x10000) :
    ∃ asked, name.push value = .ok asked ∧
      asked.Extends name (Component.marker name.suite value) := by
  let last := Component.marker name.suite value
  refine ⟨⟨name.suite, name.components ++ [last], Component.chunk? name.suite last <|> name.chunk,
    name.flags⟩, ?_, rfl, rfl, rfl, ?_⟩
  · rw [push, Component.ofValue_eq_ok _ hshort]
    exact if_pos hroom
  · rw [size, List.length_append]
    exact hroom

/-- A name with one component more than the content asks for the digest that is this component. -/
theorem admits_concat_iff (hsuite : asked.suite = name.suite)
    (hcomponents : asked.components = name.components ++ [last]) (hroom : asked.size ≤ maxComponents)
    (most : Nat) (digest : Option Bytes) :
    asked.admits 0 most name digest = true ↔ digest = some last := by
  have hsize : asked.size = name.size + 1 := size_of_concat hcomponents
  have hopen : asked.size + 0 ≤ name.size + 1 ∧ name.size + 1 ≤ asked.size + most := by omega
  have hlonger : ¬asked.components <+: name.components := not_leads_of_size_lt (by omega)
  rw [admits_iff hsuite.symm (by omega), and_iff_right hopen, or_iff_right hlonger, hcomponents]
  constructor
  · rintro ⟨d, rfl, hequal⟩
    rw [List.singleton_inj.1 (List.append_cancel_left hequal)]
  · rintro rfl
    exact ⟨last, rfl, rfl⟩

namespace Extends

/-- What holds of the components and of the last holds of all. -/
theorem forall_mem (h : asked.Extends name last) {p : Bytes → Prop}
    (hcomponents : ∀ wire ∈ name.components, p wire) (hlast : p last) :
    ∀ wire ∈ asked.components, p wire := by
  intro wire hwire
  rw [h.components] at hwire
  rcases List.mem_append.1 hwire with hold | hnew
  · exact hcomponents wire hold
  · rwa [List.mem_singleton.1 hnew]

theorem length_wireComponents (h : asked.Extends name last) :
    asked.wireComponents.length = name.wireComponents.length + 1 := by
  have hmarkers : asked.markers = name.markers := by
    rw [markers, markers, h.flags, h.suite]
  rw [wireComponents, wireComponents, hmarkers, h.components]
  simp only [List.length_append, List.length_singleton]
  omega

/-- A name that ends in a long value does not end in a marker. -/
theorem endsIn_eq_false (h : asked.Extends name (Component.marker name.suite value)) {word : Bytes}
    (hword : word.length < value.length) : asked.endsIn word = false := by
  simp only [endsIn, h.components, List.getLast?_append, List.getLast?_singleton, Option.some_or,
    h.suite, Component.value_marker, beq_eq_false_iff_ne]
  rintro rfl
  exact Nat.lt_irrefl _ hword

end Extends

end Name

/-! ## Interests without selectors -/

namespace Suite

variable {name : Name} {wire : Bytes}

/-- There is room for an interest without selectors. -/
theorem encodeInterest_plain (hccnx : name.suite ≠ .ccnx) (hcisco : name.suite ≠ .cisco)
    (hcomponents : ∀ wire ∈ name.components, wire.length < 2 ^ 53)
    (hiot : name.suite = .iot → ∀ wire ∈ name.components, wire.length < 2 ^ 32) :
    ∃ wire, name.suite.encodeInterest name {} = .ok wire := by
  cases hsuite : name.suite with
  | ccnb =>
    exact ⟨_, Ccnb.encodeInterest_of_wires
      (Name.length_lt_of_mem_wireComponents (by decide) hcomponents) (by decide)⟩
  | ccnx => exact absurd hsuite hccnx
  | cisco => exact absurd hsuite hcisco
  | iot =>
    exact ⟨_, Iot.encodeInterest_of_wires
      (Name.length_lt_of_mem_wireComponents (by decide) (hiot hsuite)) {}⟩
  | ndn => exact ⟨_, Ndn.encodeInterest_of_items rfl (length_bigEndian 4 _)⟩

/-- An interest without selectors wants no component beyond its name, and no key. -/
theorem admits_plain {suite : Suite} (hcisco : suite ≠ .cisco) {interest content : Packet}
    {read name : Name} (hinterest : interest.name? = some read) (hcontent : content.name? = some name)
    (hdetails : interest.details.suite = suite)
    (htold : ({} : InterestOptions).ToldBy interest.details) :
    ∃ most, ∀ digest, suite.admits interest content digest = read.admits 0 most name digest := by
  obtain ⟨bytes, body, details⟩ := interest
  subst hdetails
  cases details with
  | ccnb d =>
    obtain ⟨-, hkey, hleast, -⟩ : d.nonce = none ∧ d.publisherKey = none ∧ d.minSuffix = 0 ∧ _ :=
      htold
    refine ⟨d.maxSuffix.toNat, fun digest => ?_⟩
    simp [admits, hinterest, hcontent, Details.suite, hkey, hleast]
  | ndn d =>
    obtain ⟨-, hleast, -⟩ := htold
    refine ⟨d.maxSuffix.toNat, fun digest => ?_⟩
    simp [admits, hinterest, hcontent, Details.suite, hleast]
  | ccnx | iot =>
    refine ⟨digestOnly, fun digest => ?_⟩
    simp [admits, hinterest, hcontent, Details.suite]
  | cisco => exact absurd rfl hcisco

end Suite

/-! ## Finding content -/

/-- An interest with this name and without selectors can be written, is read, and admits the content
    if this is what is known of its digest. -/
def Name.Finds (asked : Name) (content : Packet) (digest : Option Bytes) : Prop :=
  ∃ wire interest n, asked.suite.encodeInterest asked {} = .ok wire ∧
    asked.suite.decodeBehindSwitch wire = .ok (interest, n) ∧
    asked.suite.admits interest content digest = true

namespace Name

variable {name asked : Name} {value d : Bytes}

namespace Extends

variable (h : asked.Extends name (Component.marker name.suite value)) (hvalue : 5 < value.length)
  (hcisco : asked.suite ≠ .cisco) (henclosed : asked.Enclosed)
  (hshort : ∀ wire ∈ asked.components, wire.length < 2 ^ 53) {content : Packet}
  (hcontent : content.name? = some name) (digest : Option Bytes)

include h hvalue hcisco henclosed hshort hcontent

/-- If the name is reread, an interest with it is read and admits the content with this digest. -/
theorem decode_admits {wire : Bytes} (hok : asked.suite.encodeInterest asked {} = .ok wire)
    {read : Name} (hreread : asked.reread = .ok read) :
    ∃ interest n, asked.suite.decodeBehindSwitch wire = .ok (interest, n) ∧
      (asked.suite.admits interest content digest = true ↔
        digest = some (Component.marker name.suite value)) := by
  have hnfn : asked.endsIn Component.nfnWord = false :=
    h.endsIn_eq_false (Nat.lt_trans (by decide) hvalue)
  have hthunk : asked.endsIn Component.thunkWord = false := h.endsIn_eq_false hvalue
  obtain ⟨hsame, hread⟩ := components_of_reread hreread hnfn hthunk
  obtain ⟨details, hdetails, htold, hdecode⟩ :=
    Suite.decode_interest_reread (henclosed.kept hcisco) h.room hshort hok
  rw [hreread] at hdecode
  refine ⟨_, _, eq_ok_of_toOption hdecode, ?_⟩
  have hnamed : (⟨wire, .message .interest read none, details⟩ : Packet).name? = some read := rfl
  obtain ⟨most, hmost⟩ := Suite.admits_plain hcisco hnamed hcontent hdetails htold
  rw [hmost]
  have hsize : read.size = asked.size := congrArg List.length hread
  exact admits_concat_iff (hsame.trans h.suite) (hread.trans h.components) (hsize ▸ h.room) most digest

/-- A name that asks for a digest finds the content that has it, if the interest can be written and
    there is room for both the digest and the markers. -/
theorem finds_iff :
    asked.Finds content digest ↔ (∃ wire, asked.suite.encodeInterest asked {} = .ok wire) ∧
      asked.wireComponents.length ≤ maxComponents ∧
        digest = some (Component.marker name.suite value) := by
  have hadmits {wire : Bytes} (hok : asked.suite.encodeInterest asked {} = .ok wire) {read : Name}
      (hreread : asked.reread = .ok read) :=
    h.decode_admits hvalue hcisco henclosed hshort hcontent digest hok hreread
  constructor
  · rintro ⟨wire, interest, n, hok, hdecode, hadmitted⟩
    obtain ⟨details, -, -, hread⟩ :=
      Suite.decode_interest_reread (henclosed.kept hcisco) h.room hshort hok
    cases hreread : asked.reread with
    | error e =>
      rw [hdecode, hreread] at hread
      cases hread
    | ok read =>
      obtain ⟨_, _, hagain, hdigest⟩ := hadmits hok hreread
      cases hdecode.symm.trans hagain
      exact ⟨⟨wire, hok⟩, exists_reread_iff.1 ⟨read, hreread⟩, hdigest.1 hadmitted⟩
  · rintro ⟨⟨wire, hok⟩, hroom, hdigest⟩
    obtain ⟨read, hreread⟩ := exists_reread_iff.2 hroom
    obtain ⟨interest, n, hdecode, hiff⟩ := hadmits hok hreread
    exact ⟨wire, interest, n, hok, hdecode, hiff.2 hdigest⟩

end Extends

/-- If a digest is appended to the name of a content, an interest with this name finds the content if
    it has the digest and not otherwise, as long as markers leave room. In CCNx it finds nothing. -/
theorem finds_digest_iff (hcisco : name.suite ≠ .cisco) (henclosed : name.Enclosed)
    (hsize : name.size < maxComponents)
    (hshort : ∀ wire ∈ name.components, wire.length < 2 ^ 53)
    (hiot : name.suite = .iot → ∀ wire ∈ name.components, wire.length < 2 ^ 32)
    (hd : d.length = 32) :
    ∃ asked, name.push d = .ok asked ∧ ∀ content : Packet, content.name? = some name →
      ∀ digest : Option Bytes, (∀ x ∈ digest, x.length = 32) →
        (asked.Finds content digest ↔
          name.suite ≠ .ccnx ∧ name.wireComponents.length < maxComponents ∧ digest = some d) := by
  obtain ⟨asked, hpush, h⟩ := push_extends hsize (by omega : d.length < 0x10000)
  refine ⟨asked, hpush, ?_⟩
  intro content hcontent digest hdigest
  have hlast := Component.length_marker_le name.suite d
  have hcisco' : asked.suite ≠ .cisco := h.suite ▸ hcisco
  have hshort' := h.forall_mem hshort (by omega)
  have henclosed' : asked.Enclosed := by
    rw [Enclosed, h.suite]
    exact h.forall_mem henclosed (Component.wellFormed_marker _ (by omega)).enclosed
  rw [h.finds_iff (by omega) hcisco' henclosed' hshort' hcontent, h.length_wireComponents]
  constructor
  · rintro ⟨-, hfits, rfl⟩
    obtain ⟨hbare, heq⟩ := (Component.marker_eq_iff name.suite
      ((hdigest _ rfl).trans hd.symm)).1 rfl
    refine ⟨?_, hfits, congrArg some heq⟩
    intro hccnx
    rw [hccnx] at hbare
    cases hbare
  · rintro ⟨hccnx, hfits, rfl⟩
    have hbare : name.suite.framesComponents = false := by
      cases hsuite : name.suite <;> first | rfl | contradiction
    refine ⟨?_, hfits, congrArg some ((Component.marker_eq_iff _ rfl).2 ⟨hbare, rfl⟩)⟩
    apply Suite.encodeInterest_plain (h.suite ▸ hccnx) hcisco' hshort'
    intro hsuite
    exact h.forall_mem (hiot (h.suite ▸ hsuite)) (by omega)

/-- Content for `/a` is found by its digest in NDN and, read and asked for in the same way, is not
    found in CCNx. -/
theorem digest_found_unframed :
    let digest : Bytes := List.replicate 32 7
    let found : Packet := ⟨[6, 17, 7, 3, 8, 1, 97, 20, 0, 21, 1, 112, 22, 3, 27, 1, 0, 23, 0],
      .message .content ⟨.ndn, [[97]], none, .none⟩ (some ⟨11, 12⟩), .ndn {}⟩
    let missed : Packet := ⟨[1, 1, 0, 26, 255, 0, 0, 8, 0, 2, 0, 14, 0, 0, 0, 5, 0, 1, 0, 1, 97, 0, 1,
      0, 1, 112], .message .content ⟨.ccnx, [[0, 1, 0, 1, 97]], none, .none⟩ (some ⟨25, 26⟩),
      .ccnx { hopLimit := 255 }⟩
    Suite.ndn.decode found.bytes = .ok (found, 19) ∧
      (∃ asked, push ⟨.ndn, [[97]], none, .none⟩ digest = .ok asked ∧
        asked.Finds found (some digest)) ∧
      Suite.ccnx.decode missed.bytes = .ok (missed, 26) ∧
      ∃ asked, push ⟨.ccnx, [[0, 1, 0, 1, 97]], none, .none⟩ digest = .ok asked ∧
        ¬asked.Finds missed (some digest) := by
  intro digest found missed
  have hfound : Suite.ndn.decode found.bytes = .ok (found, 19) :=
    eq_ok_of_toOption (by decide +kernel)
  have hmissed : Suite.ccnx.decode missed.bytes = .ok (missed, 26) :=
    eq_ok_of_toOption (by decide +kernel)
  have hdigest : ∀ x ∈ some digest, x.length = 32 := by simp [digest]
  refine ⟨hfound, ?_, hmissed, ?_⟩
  · obtain ⟨asked, hpush, hiff⟩ := finds_digest_iff (d := digest) (by decide)
      (kept_of_decode hfound rfl).enclosed (by decide) (by decide) nofun (by decide)
    exact ⟨asked, hpush, (hiff found rfl (some digest) hdigest).2 ⟨by decide, by decide, rfl⟩⟩
  · obtain ⟨asked, hpush, hiff⟩ := finds_digest_iff (d := digest) (by decide)
      (kept_of_decode hmissed rfl).enclosed (by decide) (by decide) nofun (by decide)
    exact ⟨asked, hpush, fun h => ((hiff missed rfl (some digest) hdigest).1 h).1 rfl⟩

end Name

end NameRelay
