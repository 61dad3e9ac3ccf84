-- SUMMARY: What comparing two names finds out, and when content is admitted for an interest.
import NameRelay.Name.Matching

/-!
# What a match means

One walk along the components serves every comparison. An exact match finds out whether two names
are equal in everything. The other modes find how many components lead both names.

Whether content is admitted hangs on two things and no others. The number of its components, with
its digest counted among them, is within the limits of the interest; and the components of the
interest lead them.
-/

namespace NameRelay

/-! ## What two lists share -/

/-- `shared` leads both lists, and nothing longer does. -/
structure LongestLead {α : Type} (shared as bs : List α) : Prop where
  left : shared <+: as
  right : shared <+: bs
  longest : ∀ other, other <+: as → other <+: bs → other.length ≤ shared.length

namespace LongestLead

variable {α : Type} {shared as bs : List α}

theorem symm (h : LongestLead shared as bs) : LongestLead shared bs as where
  left := h.right
  right := h.left
  longest other has hbs := h.longest other hbs has

theorem length_unique {other : List α} (h : LongestLead shared as bs)
    (hother : LongestLead other as bs) : shared.length = other.length :=
  Nat.le_antisymm (hother.longest _ h.left h.right) (h.longest _ hother.left hother.right)

theorem nil_left (bs : List α) : LongestLead [] [] bs where
  left := List.prefix_rfl
  right := List.nil_prefix
  longest _ has _ := has.length_le

theorem of_ne {a b : α} (h : a ≠ b) (as bs : List α) : LongestLead [] (a :: as) (b :: bs) where
  left := List.nil_prefix
  right := List.nil_prefix
  longest other has hbs := by
    cases other with
    | nil => exact Nat.le_refl 0
    | cons c rest => exact absurd ((List.cons_prefix_cons.1 has).1.symm.trans
        (List.cons_prefix_cons.1 hbs).1) h

theorem cons (h : LongestLead shared as bs) (a : α) :
    LongestLead (a :: shared) (a :: as) (a :: bs) where
  left := List.cons_prefix_cons.2 ⟨rfl, h.left⟩
  right := List.cons_prefix_cons.2 ⟨rfl, h.right⟩
  longest other has hbs := by
    cases other with
    | nil => exact Nat.zero_le _
    | cons c rest =>
      exact Nat.succ_le_succ
        (h.longest rest (List.cons_prefix_cons.1 has).2 (List.cons_prefix_cons.1 hbs).2)

theorem of_prefix (h : as <+: bs) : LongestLead as as bs where
  left := List.prefix_rfl
  right := h
  longest _ has _ := has.length_le

/-- If a list goes on in another way than one that it leads, it is what both share. -/
theorem of_concat {a : α} (h : as <+: bs) (ha : ¬as ++ [a] <+: bs) :
    LongestLead as (as ++ [a]) bs where
  left := List.prefix_append as [a]
  right := h
  longest other has hbs := by
    rcases List.prefix_concat_iff.1 has with rfl | hshort
    · exact absurd hbs ha
    · exact hshort.length_le

/-- What is shared is all of the second list just if that leads the first. -/
theorem length_eq_iff (h : LongestLead shared as bs) : shared.length = bs.length ↔ bs <+: as := by
  constructor
  · intro hlength
    rw [← h.right.eq_of_length hlength]
    exact h.left
  · intro hlead
    exact Nat.le_antisymm h.right.length_le (h.longest bs hlead List.prefix_rfl)

end LongestLead

/-! ## The walk -/

namespace MatchMode

/-- An exact match of lists of one length passes all components or fails. -/
theorem walk_exact {as bs : List Bytes} (h : as.length = bs.length) (passed : Nat) :
    MatchMode.exact.walk passed as bs = if as = bs then some (passed + as.length) else none := by
  induction as generalizing passed bs with
  | nil =>
    cases List.length_eq_zero_iff.1 h.symm
    rfl
  | cons a as ih =>
    cases bs with
    | nil => cases h
    | cons b bs =>
      by_cases hab : a = b
      · rw [walk, if_pos hab, ih (Nat.succ.inj h), List.length_cons, Nat.add_right_comm]
        simp only [List.cons.injEq, hab, true_and, Nat.add_assoc]
      · simp only [walk, hab, if_false, if_true, List.cons.injEq, false_and]

/-- The other modes pass what the lists share. -/
theorem walk_of_ne_exact {mode : MatchMode} (hmode : mode ≠ .exact) (passed : Nat)
    (as bs : List Bytes) : ∃ shared, LongestLead shared as bs ∧
      mode.walk passed as bs = some (passed + shared.length) := by
  induction as generalizing passed bs with
  | nil => exact ⟨[], .nil_left bs, rfl⟩
  | cons a as ih =>
    cases bs with
    | nil => exact ⟨[], (LongestLead.nil_left _).symm, rfl⟩
    | cons b bs =>
      by_cases hab : a = b
      · subst hab
        obtain ⟨shared, hshared, hwalk⟩ := ih (passed + 1) bs
        refine ⟨a :: shared, hshared.cons a, ?_⟩
        rw [walk, if_pos rfl, hwalk, List.length_cons, Nat.add_right_comm, Nat.add_assoc]
      · exact ⟨[], .of_ne hab as bs, by rw [walk, if_neg hab, if_neg hmode]; rfl⟩

end MatchMode

/-! ## Comparing -/

namespace Name

variable {a b : Name} {mode : MatchMode}

theorem compare_of_suite_ne (h : a.suite ≠ b.suite) (mode : MatchMode) (digest : Option Bytes) :
    compare mode a digest b = none := if_pos h

/-- All modes but one count what is shared. -/
theorem compare_of_ne_exact (hmode : mode ≠ .exact) (hsuite : a.suite = b.suite)
    (digest : Option Bytes) : ∃ shared,
      LongestLead shared (a.implicitComponents digest) b.components ∧
        compare mode a digest b = some shared.length := by
  obtain ⟨shared, hshared, hwalk⟩ :=
    MatchMode.walk_of_ne_exact hmode 0 (a.implicitComponents digest) b.components
  refine ⟨shared, hshared, ?_⟩
  simp only [compare, hsuite, ne_eq, not_true_eq_false, if_false, hmode, false_and, hwalk,
    Nat.zero_add]

/-- An exact match leaves nothing of a name out. -/
theorem compare_exact (a b : Name) :
    compare .exact a none b = if a = b then some a.size else none := by
  obtain ⟨suite, components, chunk, flags⟩ := a
  obtain ⟨suite', components', chunk', flags'⟩ := b
  simp only [compare, implicitComponents, Option.toList_none, List.append_nil, true_and, size,
    mk.injEq, ne_eq]
  by_cases hsuite : suite = suite'
  · by_cases hlength : components.length = components'.length
    · simp only [hsuite, not_true_eq_false, if_false, hlength, false_or, true_and,
        MatchMode.walk_exact hlength, Nat.zero_add]
      grind
    · have hcomponents : components ≠ components' := fun h => hlength (h ▸ rfl)
      simp [hlength, hcomponents]
  · simp [hsuite]

theorem same_iff : a.same b = true ↔ a = b := by
  rw [same, compare_exact, Option.isSome_ite]

/-- A name is compared to all of another just if that leads it. -/
theorem compare_eq_size_iff (hmode : mode ≠ .exact) (hsuite : a.suite = b.suite)
    (digest : Option Bytes) :
    compare mode a digest b = some b.size ↔ b.components <+: a.implicitComponents digest := by
  obtain ⟨shared, hshared, hcompare⟩ := compare_of_ne_exact hmode hsuite digest
  rw [hcompare, Option.some.injEq, size, hshared.length_eq_iff]

/-- Without a digest it does not matter which name is compared to which. -/
theorem compare_comm (hmode : mode ≠ .exact) (a b : Name) :
    compare mode a none b = compare mode b none a := by
  by_cases hsuite : a.suite = b.suite
  · obtain ⟨shared, hshared, hcompare⟩ := compare_of_ne_exact hmode hsuite none
    obtain ⟨other, hother, hback⟩ := compare_of_ne_exact hmode hsuite.symm none
    rw [implicitComponents, Option.toList_none, List.append_nil] at hshared hother
    rw [hcompare, hback, hshared.length_unique hother.symm]
  · rw [compare_of_suite_ne hsuite, compare_of_suite_ne (Ne.symm hsuite)]

/-- Names of different suites never match. Two names of one suite share what leads both, the digest
    being the last component of the first if it is given; so all of the first is shared if it leads
    the second and its digest does not go on there. Names match exactly if they are the same, so
    exact matches tell apart what an equivalence would. -/
theorem compare_shared_or_equal (a b : Name) (digest : Option Bytes) :
    (a.suite ≠ b.suite → ∀ mode, compare mode a digest b = none) ∧
    (∀ mode, mode ≠ .exact →
      (a.suite = b.suite → ∃ shared,
        LongestLead shared (a.implicitComponents digest) b.components ∧
          compare mode a digest b = some shared.length) ∧
      compare mode a none b = compare mode b none a ∧
      (a.suite = b.suite → a.components <+: b.components →
        (∀ d ∈ digest, ¬a.components ++ [d] <+: b.components) →
          compare mode a digest b = some a.size)) ∧
    compare .exact a none b = (if a = b then some a.size else none) ∧
    Equivalence fun x y : Name => (compare .exact x none y).isSome = true := by
  refine ⟨fun hsuite mode => compare_of_suite_ne hsuite mode digest, ?_, compare_exact a b, ?_⟩
  · intro mode hmode
    refine ⟨fun hsuite => compare_of_ne_exact hmode hsuite digest, compare_comm hmode a b, ?_⟩
    intro hsuite hlead hends
    obtain ⟨shared, hshared, hcompare⟩ := compare_of_ne_exact hmode hsuite digest
    have hall : LongestLead a.components (a.implicitComponents digest) b.components := by
      cases digest with
      | none => simpa [implicitComponents] using LongestLead.of_prefix hlead
      | some d => exact .of_concat hlead (hends d rfl)
    rw [hcompare, hshared.length_unique hall, size]
  · simp only [compare_exact, Option.isSome_ite]
    exact ⟨fun _ => rfl, Eq.symm, Eq.trans⟩

/-- All of `/a` leads `/a/c`, also if a digest that is not `c` comes behind it. -/
theorem compare_above :
    let above : Name := ⟨.ndn, [[0x61]], none, .none⟩
    let below : Name := ⟨.ndn, [[0x61], [0x63]], none, .none⟩
    above.components <+: below.components ∧
      compare .longest above (some [0x64]) below = some above.size := by
  intro above below
  have hlead : above.components <+: below.components := by decide
  have hshared := ((compare_shared_or_equal above below (some [0x64])).2.1 .longest nofun).2.2
  exact ⟨hlead, hshared rfl hlead (by simp [above, below])⟩

/-! ## Admitting content -/

variable {wanted content : Name} {least most : Nat} {digest : Option Bytes}

/-- Names are short, so that limits which stop at the largest word are limits all the same. -/
theorem saturating_limits_iff (hsize : content.size ≤ maxComponents) :
    ¬(saturatingAdd wanted.size least > content.size + 1 ∨
        saturatingAdd wanted.size most < content.size + 1) ↔
      wanted.size + least ≤ content.size + 1 ∧ content.size + 1 ≤ wanted.size + most := by
  simp only [saturatingAdd, word64Max, maxComponents] at *
  omega

theorem size_of_concat {d : Bytes} (h : a.components = b.components ++ [d]) :
    a.size = b.size + 1 := by
  rw [size, h, List.length_append]
  rfl

/-- A longer name does not lead a shorter one. -/
theorem not_leads_of_size_lt (h : b.size < a.size) : ¬a.components <+: b.components :=
  fun hlead => Nat.not_le_of_lt h hlead.length_le

/-- A list that leads another with one element more, and is as long, is the longer one. -/
theorem leads_concat_iff {d : Bytes} (hsize : wanted.size = content.size + 1) :
    wanted.components <+: content.components ++ [d] ↔
      wanted.components = content.components ++ [d] := by
  refine ⟨fun h => h.eq_of_length ?_, fun h => h ▸ List.prefix_rfl⟩
  rw [List.length_append]
  exact hsize

/-- Content is admitted if its components, with the digest as one of them, are within the limits and
    the wanted ones lead them. -/
theorem admits_iff (hsuite : content.suite = wanted.suite) (hsize : content.size ≤ maxComponents) :
    wanted.admits least most content digest = true ↔
      (wanted.size + least ≤ content.size + 1 ∧ content.size + 1 ≤ wanted.size + most) ∧
        (wanted.components <+: content.components ∨
          ∃ d, digest = some d ∧ wanted.components = content.components ++ [d]) := by
  have hleading : MatchMode.leading ≠ .exact := nofun
  rw [← saturating_limits_iff hsize]
  simp only [admits]
  split
  · rename_i hlimits
    exact iff_of_false Bool.false_ne_true fun h => h.1 hlimits
  rename_i hlimits
  rw [and_iff_right hlimits]
  -- The digest is looked at just if nothing but a digest could be the last of the wanted components.
  cases hneeds : wanted.needsDigest content with
  | true =>
    have hlonger : wanted.size = content.size + 1 := beq_iff_eq.1 hneeds
    rw [or_iff_right (not_leads_of_size_lt (hlonger ▸ Nat.lt_succ_self _))]
    cases digest with
    | none => simp
    | some d =>
      simp only [if_true, Option.isSome_some, Bool.true_and, beq_iff_eq,
        compare_eq_size_iff hleading hsuite, implicitComponents, Option.toList_some,
        leads_concat_iff hlonger, Option.some.injEq, exists_eq_left']
  | false =>
    have hnamed : ¬∃ d, digest = some d ∧ wanted.components = content.components ++ [d] := by
      rintro ⟨d, -, hequal⟩
      exact Bool.false_ne_true (hneeds.symm.trans (beq_iff_eq.2 (size_of_concat hequal)))
    rw [or_iff_left hnamed]
    simp only [Bool.false_eq_true, if_false, beq_iff_eq, compare_eq_size_iff hleading hsuite,
      implicitComponents, Option.toList_none, List.append_nil]

/-- Content of the same suite is admitted just if the number of its components, its digest counted,
    is within the limits, and the wanted components lead its own or are these and the digest. Content
    of another suite never is, and a digest that is not needed makes no difference. -/
theorem admits_iff_within_leading (wanted content : Name) (hsize : content.size ≤ maxComponents)
    (least most : Nat) (digest : Option Bytes) :
    (wanted.suite = content.suite →
      (wanted.admits least most content digest = true ↔
        (wanted.size + least ≤ content.size + 1 ∧ content.size + 1 ≤ wanted.size + most) ∧
          (wanted.size ≤ content.size ∧ wanted.components <+: content.components ∨
            wanted.size = content.size + 1 ∧
              ∃ d, digest = some d ∧ wanted.components = content.components ++ [d]))) ∧
    (wanted.suite ≠ content.suite → wanted.admits least most content digest = false) ∧
    (wanted.needsDigest content = false →
      wanted.admits least most content none = wanted.admits least most content digest) := by
  refine ⟨?_, ?_, ?_⟩
  · intro hsuite
    rw [admits_iff hsuite.symm hsize]
    refine and_congr_right fun _ => or_congr ?_ ?_
    · exact ⟨fun hlead => ⟨hlead.length_le, hlead⟩, fun h => h.2⟩
    · refine ⟨?_, fun h => h.2⟩
      rintro ⟨d, rfl, hequal⟩
      exact ⟨size_of_concat hequal, d, rfl, hequal⟩
  · intro hsuite
    simp [admits, compare_of_suite_ne (Ne.symm hsuite)]
  · intro hneeds
    simp only [admits, hneeds, Bool.false_eq_true, if_false]

/-- Content for `/a/b/c` is admitted for `/a` with two components more and its digest. -/
theorem admits_two_below :
    let wanted : Name := ⟨.ndn, [[0x61]], none, .none⟩
    let content : Name := ⟨.ndn, [[0x61], [0x62], [0x63]], none, .none⟩
    content.size ≤ maxComponents ∧ wanted.admits 3 3 content none = true ∧
      wanted.admits 0 2 content none = false := by
  intro wanted content
  have hsize : content.size ≤ maxComponents := by decide
  have hadmits (least most : Nat) :=
    (admits_iff_within_leading wanted content hsize least most none).1 rfl
  refine ⟨hsize, (hadmits 3 3).2 ⟨by decide, .inl (by decide)⟩, ?_⟩
  rw [Bool.eq_false_iff, ne_eq, hadmits]
  rintro ⟨hlimits, -⟩
  exact absurd hlimits (by decide)

end Name

end NameRelay
