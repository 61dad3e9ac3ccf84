-- SUMMARY: What holds of every packet that a suite reads off the front of some bytes.
import NameRelay.Codec
import NameRelay.Proofs.Name.Restoring
import NameRelay.Proofs.Wire.Framing

/-!
# Framed packets

A packet that was read is made of the bytes that it took and of nothing else. `Framed` says so of a
reader of packets, at one string of bytes: how many bytes were taken, that the packet keeps just
these, that its content lies in them, what names it can have, and that the same bytes give the same
packet whatever follows them. From the last it follows that no packet is the beginning of another.
-/

namespace NameRelay

/-! ## Names that were read -/

namespace Name

/-- The name is one of the suite and has no more components than a name may have. -/
def Fits (name : Name) (suite : Suite) : Prop := name.suite = suite ∧ name.size ≤ maxComponents

theorem fits_root (suite : Suite) : (root suite).Fits suite := ⟨rfl, Nat.zero_le _⟩

theorem Fits.readWire {name longer : Name} {suite : Suite} {wire : Bytes} (hfits : name.Fits suite)
    (h : name.readWire wire = .ok longer) : longer.Fits suite := by
  obtain ⟨hsuite, -, hsize⟩ := readWire_eq_ok h
  exact ⟨hsuite.trans hfits.1, hsize⟩

/-- Taking markers off leaves the suite and adds no component. -/
theorem Fits.stripMarkers {name : Name} {suite : Suite} (hfits : name.Fits suite) :
    name.stripMarkers.Fits suite := by
  obtain ⟨hsuite, hsize⟩ := hfits
  rw [size] at hsize
  rw [Name.stripMarkers]
  split
  · dsimp only
    split
    all_goals
      refine ⟨hsuite, ?_⟩
      simp only [size, List.length_dropLast]
      omega
  · exact ⟨hsuite, hsize⟩

/-- A name whose components are read one by one is a name of the suite. -/
theorem fits_of_foldM {suite : Suite} {es : Tlv.Elements}
    {step : Name → Tlv.Element → Except DecodeError Name}
    (hstep : ∀ name e longer, step name e = .ok longer →
      longer = name ∨ ∃ wire, name.readWire wire = .ok longer)
    {name : Name} (h : es.foldM (root suite) step = .ok name) : name.stripMarkers.Fits suite := by
  refine Fits.stripMarkers (es.foldM_keeps (·.Fits suite) ?_ (fits_root suite) h)
  intro e _ shorter longer hfits hlonger
  obtain rfl | ⟨wire, hwire⟩ := hstep shorter e longer hlonger
  · exact hfits
  · exact hfits.readWire hwire

end Name

/-- The name and the content that were found so far are of the suite and in so many bytes. -/
structure Found (suite : Suite) (n : Nat) (name : Option Name) (content : Option Span) : Prop where
  name : ∀ x, name = some x → x.Fits suite
  content : ∀ s, content = some s → s.Within n

namespace Found

variable {suite : Suite} {n : Nat} {name : Option Name} {content : Option Span}

theorem nothing : Found suite n none none where
  name := by simp
  content := by simp

theorem withName (h : Found suite n name content) {x : Name} (hx : x.Fits suite) :
    Found suite n (some x) content :=
  ⟨fun y hy => by cases hy; exact hx, h.content⟩

theorem withContent (h : Found suite n name content) {s : Span} (hs : s.Within n) :
    Found suite n name (some s) :=
  ⟨h.name, fun t ht => by cases ht; exact hs⟩

end Found

/-! ## Packets that were read -/

/-- What is kept in front of the bytes of a packet that has to travel behind a switch. -/
def Suite.keptSwitch (suite : Suite) : Bytes :=
  if suite.needsSwitch then Switch.header suite else []

/-- A message has a name of the suite; a fragment has none. -/
def Body.Fits : Body → Suite → Prop
  | .message _ name _, suite => name.Fits suite
  | .fragment _ _, _ => True

/-- The packet is what `decode` reads off the front of `bytes`, `n` bytes and nothing else. -/
structure Framed (decode : Bytes → Except DecodeError (Packet × Nat)) (suite : Suite) (bytes : Bytes)
    (p : Packet) (n : Nat) : Prop where
  positive : 0 < n
  inside : n ≤ bytes.length
  ofSuite : p.suite = suite
  kept : p.bytes = suite.keptSwitch ++ bytes.take n
  content : ∀ s, p.contentSpan? = some s → s.Within p.bytes.length
  body : p.body.Fits suite
  again : ∀ behind, decode (bytes.take n ++ behind) = .ok (p, n)

/-- A packet that is read off `front`, whatever follows, and keeps it, is framed. -/
theorem Framed.of_front {decode : Bytes → Except DecodeError (Packet × Nat)} {suite : Suite}
    {front rest : Bytes} {p : Packet} (hne : front ≠ [])
    (hagain : ∀ behind, decode (front ++ behind) = .ok (p, front.length)) (hsuite : p.suite = suite)
    (hkept : p.bytes = suite.keptSwitch ++ front)
    (hcontent : ∀ s, p.contentSpan? = some s → s.Within p.bytes.length) (hbody : p.body.Fits suite) :
    Framed decode suite (front ++ rest) p front.length where
  positive := List.length_pos_iff.2 hne
  inside := (List.prefix_append front rest).length_le
  ofSuite := hsuite
  kept := by rw [List.take_left, hkept]
  content := hcontent
  body := hbody
  again behind := by rw [List.take_left, hagain]

/-- A reader that frames its packets accepts no proper beginning of one. -/
theorem Framed.no_shorter {decode : Bytes → Except DecodeError (Packet × Nat)} {suite : Suite}
    (hframes : ∀ bytes p n, decode bytes = .ok (p, n) → Framed decode suite bytes p n)
    {bytes : Bytes} {p : Packet} {n : Nat} (h : decode bytes = .ok (p, n)) {m : Nat} (hm : m < n) :
    ∃ e, decode (bytes.take m) = .error e := by
  cases hshort : decode (bytes.take m) with
  | error e => exact ⟨e, rfl⟩
  | ok r =>
    obtain ⟨q, k⟩ := r
    have hframed := hframes _ q k hshort
    have hk : k ≤ m := by
      have hinside := hframed.inside
      rw [List.length_take] at hinside
      omega
    -- What the beginning gives, the whole gives too, so the whole would be read as shorter.
    have hwhole := hframed.again (bytes.drop k)
    rw [List.take_take, Nat.min_eq_left hk, List.take_append_drop, h] at hwhole
    cases hwhole
    omega

end NameRelay
