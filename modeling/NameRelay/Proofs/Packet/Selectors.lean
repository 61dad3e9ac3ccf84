-- SUMMARY: An interest without selectors of its own is answered by all content below its name, but for the deepest of all.
import NameRelay.Proofs.Format.Rereading
import NameRelay.Proofs.Name.Matching

/-!
# Interests without selectors

An interest can say how many components content may have beyond its own. If it does not, the limit is
as many as a name can have. But the digest of a content counts as a component too. So the limit cuts
off just one case: the interest has no component, and the content has as many as a name can have.
-/

namespace NameRelay

open Tlv (Form)

/-- The interest says nothing about the content that it wants but its name. -/
structure InterestOptions.Unselective (o : InterestOptions) : Prop where
  least : o.minSuffix = none
  most : o.maxSuffix = none
  key : o.publisherKey = none

namespace Suite

variable {asked name : Name} {o : InterestOptions} {wire : Bytes} {interest content : Packet}

/-- An interest that is read whole and under the name that was written says what was asked for. -/
theorem toldBy_of_survives (hsuite : asked.suite = .ccnb ∨ asked.suite = .ndn)
    (hok : asked.suite.encodeInterest asked o = .ok wire)
    (hread : asked.suite.decodeBehindSwitch wire = .ok (interest, (Switch.dropFrom wire).length))
    (hasked : interest.name? = some asked) :
    interest.details.suite = asked.suite ∧ o.ToldBy interest.details := by
  rw [decodeBehindSwitch] at hread
  rcases hsuite with hsuite | hsuite <;> rw [hsuite] at hok hread ⊢
  · have hbytes := ((Ccnb.encodeInterest_eq_ok_iff asked wire o).1 hok).2
    -- That the name is short enough to be read is known from its having been read.
    have hlimits := hread
    rw [hbytes, Suite.decode, Ccnb.dropFrom_packetBytes (.inl rfl)] at hlimits
    obtain ⟨⟨read, hreread⟩, hwires⟩ := Ccnb.reread_of_decode hsuite (by decide) hlimits
    have hroom := Name.exists_reread_iff.1 ⟨read, hreread⟩
    have hsize : asked.size ≤ maxComponents := by
      rw [Name.wireComponents, List.length_append] at hroom
      exact Nat.le_trans (Nat.le_add_right _ _) hroom
    cases (Ccnb.decode_encodeInterest_reread hreread hsuite hsize hwires hok).symm.trans hread
    exact ⟨rfl, rfl, rfl, rfl, rfl⟩
  · obtain rfl := ((Ndn.encodeInterest_eq_ok_iff asked wire o).1 hok).2
    rw [Suite.decode, Ndn.dropFrom_element (.inl rfl)] at hread
    have hall := Ndn.lt_limit_of_decode hread
    obtain ⟨-, rfl⟩ := eq_of_map_packet ((Ndn.decode_interest hsuite hall).symm.trans hread) hasked
      fun _ => rfl
    exact ⟨rfl, Ndn.toldBy_interestDetails asked o⟩

/-- Such an interest admits what its name does within the limits that hold if none are given. -/
theorem admits_unselective {suite : Suite} (hsuite : suite = .ccnb ∨ suite = .ndn)
    (ho : o.Unselective) (hdetails : interest.details.suite = suite)
    (htold : o.ToldBy interest.details) (hasked : interest.name? = some asked)
    (hname : content.name? = some name) (digest : Option Bytes) :
    suite.admits interest content digest = asked.admits 0 maxComponents name digest := by
  obtain ⟨bytes, body, details⟩ := interest
  subst hdetails
  cases details with
  | ccnb d =>
    obtain ⟨-, hkey, hleast, hmost⟩ := htold
    simp [admits, hasked, hname, Details.suite, hkey, hleast, hmost, ho.key, ho.least, ho.most,
      maxComponents]
  | ndn d =>
    obtain ⟨-, hleast, hmost, -⟩ := htold
    simp [admits, hasked, hname, Details.suite, hleast, hmost, ho.least, ho.most, maxComponents]
  | ccnx | cisco | iot => rcases hsuite with h | h <;> cases h

/-- An interest without selectors, read back under its name, is answered by all content of the suite
    that has a name below it, also if its digest is not known. The only exception is an interest for
    the root and content with as many components as there can be. -/
theorem admits_below_iff (hsuite : asked.suite = .ccnb ∨ asked.suite = .ndn) (ho : o.Unselective)
    (hok : asked.suite.encodeInterest asked o = .ok wire)
    (hread : asked.suite.decodeBehindSwitch wire = .ok (interest, (Switch.dropFrom wire).length))
    (hasked : interest.name? = some asked) (hsame : name.suite = asked.suite)
    (hsize : name.size ≤ maxComponents) (hbelow : asked.components <+: name.components)
    (hname : content.name? = some name) :
    asked.suite.admits interest content none = true ↔
      ¬(asked.size = 0 ∧ name.size = maxComponents) := by
  obtain ⟨hdetails, htold⟩ := toldBy_of_survives hsuite hok hread hasked
  have hle : asked.size ≤ name.size := hbelow.length_le
  rw [admits_unselective hsuite ho hdetails htold hasked hname, Name.admits_iff hsame hsize,
    and_iff_left (.inl hbelow)]
  omega

/-- An interest for the root misses content with 64 components. -/
theorem root_misses_deepest :
    let deepest : Name := ⟨.ndn, List.replicate 64 [97], none, .none⟩
    let o : InterestOptions := { nonce := some [0, 0, 0, 1] }
    ∃ held content wire interest, Suite.ndn.encodeContent deepest [112] {} = .ok held ∧
      Suite.ndn.decodeBehindSwitch held = .ok (content, (Switch.dropFrom held).length) ∧
      content.name? = some deepest ∧ Suite.ndn.encodeInterest (Name.root .ndn) o = .ok wire ∧
      Suite.ndn.decodeBehindSwitch wire = .ok (interest, (Switch.dropFrom wire).length) ∧
      interest.name? = some (Name.root .ndn) ∧ Suite.ndn.admits interest content none = false := by
  intro deepest o
  let held : Bytes := [6, 206, 7, 192] ++ (List.replicate 64 [8, 1, 97]).flatten ++
    [20, 0, 21, 1, 112, 22, 3, 27, 1, 0, 23, 0]
  let content : Packet := ⟨held, .message .content deepest (some ⟨200, 201⟩), .ndn {}⟩
  let interest : Packet := ⟨[5, 8, 7, 0, 10, 4, 0, 0, 0, 1],
    .message .interest (Name.root .ndn) none, .ndn { nonce := some [0, 0, 0, 1] }⟩
  have hheld : Suite.ndn.encodeContent deepest [112] {} = .ok held :=
    eq_ok_of_toOption (by decide +kernel)
  have hcontent : Suite.ndn.decodeBehindSwitch held =
      .ok (content, (Switch.dropFrom held).length) := eq_ok_of_toOption (by decide +kernel)
  have hasked : Suite.ndn.encodeInterest (Name.root .ndn) o = .ok interest.bytes :=
    eq_ok_of_toOption (by decide +kernel)
  have hread : Suite.ndn.decodeBehindSwitch interest.bytes =
      .ok (interest, (Switch.dropFrom interest.bytes).length) := eq_ok_of_toOption (by decide +kernel)
  have hsize : deepest.size = maxComponents := List.length_replicate
  have hadmits := @admits_below_iff (Name.root .ndn) deepest o interest.bytes interest content
    (.inr rfl) ⟨rfl, rfl, rfl⟩ hasked hread rfl rfl (Nat.le_of_eq hsize) List.nil_prefix rfl
  refine ⟨held, content, interest.bytes, interest, hheld, hcontent, rfl, hasked, hread, rfl, ?_⟩
  rw [Bool.eq_false_iff, ne_eq]
  exact fun h => hadmits.1 h ⟨rfl, hsize⟩

end Suite

end NameRelay
