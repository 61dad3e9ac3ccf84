-- SUMMARY: A key that an interest asks for narrows down the contents in one suite and not in the other.
import NameRelay.Proofs.Format.Framing
import NameRelay.Proofs.Format.RoundTrip

/-!
# Restricted interests

In two suites an interest can name the publisher's key that content has to carry. Both read the key
and keep it, and both tell interests apart by it. But only one of them looks at it again when content
is matched. There the restriction does what it says. In the other a restricted interest is answered
by whatever answers the same interest without the restriction.
-/

namespace NameRelay

/-- The publisher's key that a packet carries or asks for. -/
def Details.publisherKey? : Details → Option Bytes
  | ccnb d => d.publisherKey
  | ndn d => d.publisherKey
  | ccnx _ | cisco _ | iot _ => none

/-- The details without the key. -/
def Details.unrestricted : Details → Details
  | ccnb d => ccnb { d with publisherKey := none }
  | ndn d => ndn { d with publisherKey := none }
  | d => d

/-- The packet without the key that it asks for. -/
def Packet.unrestricted (p : Packet) : Packet := { p with details := p.details.unrestricted }

namespace Suite

variable {suite : Suite} {interest content : Packet} {key : Bytes}

/-- Only two suites have a key to ask for. -/
theorem eq_of_publisherKey (hinterest : interest.suite = suite)
    (hkey : interest.details.publisherKey? = some key) : suite = .ccnb ∨ suite = .ndn := by
  subst hinterest
  unfold Packet.suite
  cases hd : interest.details with
  | ccnb => exact .inl rfl
  | ndn => exact .inr rfl
  | ccnx | cisco | iot => rw [hd] at hkey; cases hkey

/-- The restriction counts in one of them. -/
theorem admits_restricted (hinterest : interest.suite = suite) (hcontent : content.suite = suite)
    (hkey : interest.details.publisherKey? = some key) (digest : Option Bytes) :
    suite.admits interest content digest = true ↔
      suite.admits interest.unrestricted content digest = true ∧
        (suite = .ccnb → content.details.publisherKey? = some key) := by
  subst hinterest
  obtain ⟨bytes, body, details⟩ := interest
  obtain ⟨bytes', body', details'⟩ := content
  cases details with
  | ccnx | cisco | iot => cases hkey
  | ndn d => exact ⟨fun h => ⟨h, nofun⟩, fun h => h.1⟩
  | ccnb d =>
    have hkey : d.publisherKey = some key := hkey
    cases details' with
    | ccnx | cisco | iot | ndn => cases hcontent
    | ccnb c =>
      simp only [admits, Packet.suite, Details.suite, Packet.unrestricted, Details.unrestricted,
        Packet.name?, Details.publisherKey?, hkey]
      cases body <;> cases body' <;> simp

/-- An interest is answered by content without the key that it asks for just if it is an NDN interest
    and would be answered by that content if it asked for no key. -/
theorem admits_restricted_iff {bytes other : Bytes} {n m : Nat}
    (hinterest : suite.decode bytes = .ok (interest, n))
    (hcontent : suite.decode other = .ok (content, m))
    (hkey : interest.details.publisherKey? = some key) (digest : Option Bytes) :
    (suite.admits interest content digest = true ↔
      suite.admits interest.unrestricted content digest = true ∧
        (suite = .ccnb → content.details.publisherKey? = some key)) ∧
    (suite.admits interest content digest = true ∧ content.details.publisherKey? ≠ some key ↔
      suite = .ndn ∧ suite.admits interest.unrestricted content digest = true ∧
        content.details.publisherKey? ≠ some key) := by
  have hinterest := (decode_framed hinterest).ofSuite
  have hrestricted := admits_restricted hinterest (decode_framed hcontent).ofSuite hkey digest
  refine ⟨hrestricted, ?_⟩
  rw [hrestricted]
  rcases eq_of_publisherKey hinterest hkey with rfl | rfl
  · refine iff_of_false ?_ nofun
    rintro ⟨⟨-, hsame⟩, hother⟩
    exact hother (hsame rfl)
  · exact ⟨fun h => ⟨rfl, h.1.1, h.2⟩, fun h => ⟨⟨h.2.1, nofun⟩, h.2.2⟩⟩

/-- An interest for `/a` that asks for a key, and content for it that carries none. -/
theorem restricted_interest_answered :
    let interest : Packet := ⟨[5, 16, 7, 3, 8, 1, 97, 9, 3, 15, 1, 107, 10, 4, 0, 0, 0, 1],
      .message .interest ⟨.ndn, [[97]], none, .none⟩ none,
      .ndn { nonce := some [0, 0, 0, 1], publisherKey := some [107] }⟩
    let content : Packet := ⟨[6, 17, 7, 3, 8, 1, 97, 20, 0, 21, 1, 112, 22, 3, 27, 1, 0, 23, 0],
      .message .content ⟨.ndn, [[97]], none, .none⟩ (some ⟨11, 12⟩), .ndn {}⟩
    Suite.ndn.decode interest.bytes = .ok (interest, 18) ∧
      Suite.ndn.decode content.bytes = .ok (content, 19) ∧
      Suite.ndn.admits interest content none = true ∧
      content.details.publisherKey? ≠ some [107] := by
  intro interest content
  have hinterest : Suite.ndn.decode interest.bytes = .ok (interest, 18) :=
    eq_ok_of_toOption (by decide +kernel)
  have hcontent : Suite.ndn.decode content.bytes = .ok (content, 19) :=
    eq_ok_of_toOption (by decide +kernel)
  have hkey : interest.details.publisherKey? = some [107] := rfl
  have hanswered := (admits_restricted_iff hinterest hcontent hkey none).2.2
    ⟨rfl, by decide +kernel, nofun⟩
  exact ⟨hinterest, hcontent, hanswered.1, hanswered.2⟩

end Suite

end NameRelay
