-- SUMMARY: An interest is dropped as a repeat just if its nonce is among the last that were new.
import Mathlib.Data.List.DropRight
import NameRelay.Proofs.Relay.Uniqueness

/-!
# Repeats

A nonce is new unless it is among the last nonces that were new when they came up, of which as many
count as the table has room for. That is said here of the nonces alone, in the order in which they
come up, and without the table. The table of a relay agrees with it throughout every run: so an
interest is dropped as a repeat just if its nonce is not new in this sense, and all that comes of it
is a record.
-/

namespace NameRelay

namespace NonceTable

-- ---------------------------------------------------------------------------
-- Which nonces are new
-- ---------------------------------------------------------------------------

/-- Of nonces that come up one after the other those that are new, in order: a nonce is new unless it
    is among the last `capacity` that were new before. -/
def newOnes (capacity : Nat) (met : List (Suite × Bytes)) : List (Suite × Bytes) :=
  met.foldl (fun new nonce => if nonce ∈ new.rtake capacity then new else new ++ [nonce]) []

theorem newOnes_concat (capacity : Nat) (met : List (Suite × Bytes)) (nonce : Suite × Bytes) :
    newOnes capacity (met ++ [nonce]) =
      if nonce ∈ (newOnes capacity met).rtake capacity then newOnes capacity met
      else newOnes capacity met ++ [nonce] := by
  rw [newOnes, List.foldl_append]
  rfl

/-- Only nonces that came up are new. -/
theorem mem_of_mem_newOnes {capacity : Nat} {met : List (Suite × Bytes)} {nonce : Suite × Bytes}
    (h : nonce ∈ newOnes capacity met) : nonce ∈ met := by
  induction met using List.reverseRecOn with
  | nil => cases h
  | append_singleton met last ih =>
    rw [newOnes_concat] at h
    split at h
    · exact List.mem_append_left _ (ih h)
    · exact (List.mem_append.1 h).elim (fun hold => List.mem_append_left _ (ih hold))
        (List.mem_append_right _)

/-- The table remembers the last nonces that were new, the newest first. -/
def Remembers (t : NonceTable) (met : List (Suite × Bytes)) : Prop :=
  t.nonces = ((newOnes t.capacity met).rtake t.capacity).reverse

variable {t : NonceTable} {met : List (Suite × Bytes)} {suite : Suite} {nonce : Bytes}

theorem remembers_empty (capacity : Nat) : (empty capacity).Remembers [] := by
  simp [Remembers, empty, newOnes]

theorem Remembers.contains_iff (h : t.Remembers met) :
    t.contains suite nonce = true ↔ (suite, nonce) ∈ (newOnes t.capacity met).rtake t.capacity := by
  rw [contains, List.contains_iff_mem, h, List.mem_reverse]

/-- Of the newest nonce and those that are remembered the oldest may have to go. -/
theorem take_cons_reverse_rtake {α : Type} (l : List α) (a : α) (n : Nat) :
    (a :: (l.rtake n).reverse).take n = ((l ++ [a]).rtake n).reverse := by
  cases n with
  | zero => simp
  | succ n =>
    rw [List.rtake_concat_succ, List.reverse_concat, List.take_succ_cons,
      List.rtake_eq_reverse_take_reverse, List.rtake_eq_reverse_take_reverse, List.reverse_reverse,
      List.reverse_reverse, List.take_take, Nat.min_eq_left (Nat.le_succ n)]

/-- A table that records a nonce remembers it as the last that came up. -/
theorem Remembers.record (h : t.Remembers met) (suite : Suite) (nonce : Bytes) :
    (t.record suite nonce).2.Remembers (met ++ [(suite, nonce)]) := by
  rw [Remembers, capacity_record, newOnes_concat, NonceTable.record]
  by_cases hseen : t.contains suite nonce = true
  · rw [if_pos hseen, if_pos (h.contains_iff.1 hseen)]
    exact h
  · rw [if_neg hseen, if_neg fun hmem => hseen (h.contains_iff.2 hmem)]
    dsimp only
    rw [h]
    exact take_cons_reverse_rtake _ _ _

end NonceTable

/-- The nonce of an interest with its suite, if it has one. -/
def Packet.sighting (interest : Packet) : List (Suite × Bytes) :=
  (interest.nonce.map fun nonce => (interest.suite, nonce)).toList

namespace Relay

-- ---------------------------------------------------------------------------
-- Which nonces a relay meets
-- ---------------------------------------------------------------------------

/-- A run leads from one state to the other, and the interests that are taken in on the way have these
    nonces, in order. Meanwhile other work is done, which has nothing to do with nonces. -/
inductive Meets : Relay → List (Suite × Bytes) → Relay → Prop where
  | refl (r : Relay) : Meets r [] r
  | interest {r s : Relay} {met : List (Suite × Bytes)} (h : Meets r met s) (key : FaceKey)
      (interest : Packet) : Meets r (met ++ interest.sighting) (s.handleInterest key interest).2
  | other {r s t : Relay} {met : List (Suite × Bytes)} (h : Meets r met s) (hm : Move s t)
      (hnonces : t.nonces = s.nonces) : Meets r met t

variable {r s : Relay} {met : List (Suite × Bytes)} {key : FaceKey} {interest : Packet}

/-- Every run leads past some nonces. -/
theorem exists_meets (h : Moves r s) : ∃ met, Meets r met s := by
  induction h with
  | refl => exact ⟨[], .refl r⟩
  | tail _ hm ih =>
    obtain ⟨met, hmet⟩ := ih
    rcases nonces_of_move hm with hsame | ⟨key, interest, rfl⟩
    · exact ⟨met, hmet.other hm hsame⟩
    · exact ⟨_, hmet.interest key interest⟩

/-- Taking in an interest makes the table remember its nonce. -/
theorem remembers_handleInterest (h : r.nonces.Remembers met) (key : FaceKey) (interest : Packet) :
    (r.handleInterest key interest).2.nonces.Remembers (met ++ interest.sighting) ∧
      (r.handleInterest key interest).2.nonces.capacity = r.nonces.capacity := by
  rw [nonces_handleInterest, recordNonce, Packet.sighting]
  cases interest.nonce with
  | none => exact ⟨(List.append_nil met).symm ▸ h, rfl⟩
  | some nonce => exact ⟨h.record interest.suite nonce, NonceTable.capacity_record _ _ _⟩

/-- Throughout every run the table remembers the last nonces that were new. -/
theorem Meets.remembers (h : Meets r met s) (hr : r.nonces.Remembers []) :
    s.nonces.Remembers met ∧ s.nonces.capacity = r.nonces.capacity := by
  induction h with
  | refl => exact ⟨hr, rfl⟩
  | interest _ key interest ih =>
    obtain ⟨hremembers, hcapacity⟩ := ih
    obtain ⟨hnext, hsame⟩ := remembers_handleInterest hremembers key interest
    exact ⟨hnext, hsame.trans hcapacity⟩
  | other _ _ hnonces ih =>
    rw [hnonces]
    exact ih

-- ---------------------------------------------------------------------------
-- Which interests are dropped
-- ---------------------------------------------------------------------------

/-- The interest is dropped as a repeat. -/
def Drops (r : Relay) (key : FaceKey) (interest : Packet) : Prop :=
  r.handleInterest key interest =
    (.ok (), r.log .debug ("Dropping " ++ interest.label ++ ", nonce already seen"))

/-- An interest is dropped if its nonce is remembered. Otherwise its nonce is remembered from then on,
    if the table has room for any. -/
theorem drops_iff_contains {nonce : Bytes} (hnonce : interest.nonce = some nonce)
    (hroom : 1 ≤ r.nonces.capacity) :
    r.Drops key interest ↔ r.nonces.contains interest.suite nonce = true := by
  constructor
  · intro hdrops
    -- were the nonce not there before, it would be there now, and a drop records none
    by_contra hnew
    have hkept := (nonces_handleInterest r key interest).symm.trans
      (congrArg (fun out => out.2.nonces) hdrops)
    rw [recordNonce, hnonce] at hkept
    simp only [NonceTable.record, if_neg hnew] at hkept
    have hhead : r.nonces.nonces = (interest.suite, nonce) :: r.nonces.nonces.take
        (r.nonces.capacity - 1) := by
      have hnonces := congrArg NonceTable.nonces hkept
      rw [List.take_cons (by omega)] at hnonces
      exact hnonces.symm
    have hmem : (interest.suite, nonce) ∈ r.nonces.nonces := by
      rw [hhead]
      exact List.mem_cons_self
    exact hnew (List.contains_iff_mem.2 hmem)
  · intro hseen
    have hrecord : r.recordNonce interest = (true, r) := by
      simp only [recordNonce, hnonce, NonceTable.record, if_pos hseen]
    rw [Drops, handleInterest, hrecord]

/-- Throughout every run of a relay that remembers nonces: an interest is dropped as a repeat if and only
    if its nonce, with its suite, is among the last that were new. A drop leaves every table and
    every queue as it is, and all that comes of it is a record. A nonce that came with other suites
    only does no harm. -/
theorem drops_iff_recent {c : Config} (hc : 1 ≤ c.maxNonces) (now : Instant)
    (digest : Bytes → Option Bytes) (grants : Nat → Bool) :
    (∀ r, Moves (withLimits (Host.fresh now digest grants) c) r →
      ∃ met, Meets (withLimits (Host.fresh now digest grants) c) met r) ∧
    ∀ r met, Meets (withLimits (Host.fresh now digest grants) c) met r →
      ∀ key interest nonce, interest.nonce = some nonce →
        (r.Drops key interest ↔
          (interest.suite, nonce) ∈ (NonceTable.newOnes c.maxNonces met).rtake c.maxNonces) ∧
        (r.Drops key interest → ∃ s record, r.handleInterest key interest = (.ok (), s) ∧
          s.pending = r.pending ∧ s.routes = r.routes ∧ s.contents = r.contents ∧
          s.nonces = r.nonces ∧ s.faces = r.faces ∧ s.interfaces = r.interfaces ∧
          s.host = r.host.emit (.log record)) ∧
        ((∀ other ∈ met, other.1 = interest.suite → other.2 ≠ nonce) → ¬r.Drops key interest) := by
  refine ⟨fun r hr => exists_meets hr, fun r met hmet key interest nonce hnonce => ?_⟩
  obtain ⟨hremembers, hcapacity⟩ := hmet.remembers (NonceTable.remembers_empty c.maxNonces)
  have hroom : r.nonces.capacity = c.maxNonces := hcapacity
  have hdrops : r.Drops key interest ↔
      (interest.suite, nonce) ∈ (NonceTable.newOnes c.maxNonces met).rtake c.maxNonces := by
    rw [drops_iff_contains hnonce (hroom ▸ hc), hremembers.contains_iff, hroom]
  refine ⟨hdrops, fun h => ⟨_, _, h, rfl, rfl, rfl, rfl, rfl, rfl, rfl⟩, fun hother h => ?_⟩
  exact hother _ (NonceTable.mem_of_mem_newOnes (List.mem_of_mem_drop (hdrops.1 h))) rfl rfl

/-- An interest with these details. -/
def interestWith (details : Details) : Packet where
  bytes := []
  body := .message .interest ⟨details.suite, [[97]], none, .none⟩ none
  details := details

/-- Where there is room for one nonce, the second of two makes the relay forget the first. It is that
    suite's nonce only which is dropped from then on. -/
theorem second_drops :
    let start := withLimits (Host.fresh ⟨0⟩ (fun _ => none) fun _ => true) { maxNonces := 1 }
    let one := interestWith (.ndn { nonce := some [1] })
    let two := interestWith (.ndn { nonce := some [2] })
    let r := ((start.handleInterest ⟨0, 0⟩ one).2.handleInterest ⟨0, 0⟩ two).2
    Meets start [(.ndn, [1]), (.ndn, [2])] r ∧ r.Drops ⟨0, 0⟩ two ∧ ¬r.Drops ⟨0, 0⟩ one ∧
      ¬r.Drops ⟨0, 0⟩ (interestWith (.ccnb { nonce := some [2] })) := by
  intro start one two r
  have hmet : Meets start [(.ndn, [1]), (.ndn, [2])] r :=
    ((Meets.refl start).interest ⟨0, 0⟩ one).interest ⟨0, 0⟩ two
  have hdrops := (drops_iff_recent (c := { maxNonces := 1 }) (Nat.le_refl 1) ⟨0⟩ (fun _ => none)
    fun _ => true).2 r _ hmet ⟨0, 0⟩
  refine ⟨hmet, ?_, ?_, ?_⟩
  · apply (hdrops two [2] rfl).1.2
    decide
  · intro h
    have hrecent := (hdrops one [1] rfl).1.1 h
    exact absurd hrecent (by decide)
  · apply (hdrops _ [2] rfl).2.2
    decide

end Relay

end NameRelay
