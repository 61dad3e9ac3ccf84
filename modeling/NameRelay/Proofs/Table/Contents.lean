-- SUMMARY: What the content store takes in, and what has to go for it.
import Mathlib.Data.List.MinMax
import NameRelay.Proofs.Table.Slots
import NameRelay.Table.Contents

/-!
# Storing a packet

A packet that is put in the store is the only one that is new there, and at most one goes for it.
It finds room unless pinned packets take every place.
-/

namespace NameRelay

namespace ContentStore

variable {s : ContentStore}

/-! ## Which entry goes -/

/-- All places may be taken by pinned packets. -/
def AllPinned (s : ContentStore) : Prop := ∀ key e, s.get? key = some e → e.flags.pinned = true

/-- The entry may go, and no other that may go was used less recently. -/
structure Oldest (s : ContentStore) (key : ContentKey) (e : StoredContent) : Prop where
  stored : s.get? key = some e
  loose : e.flags.pinned = false
  least : ∀ k d, s.get? k = some d → d.flags.pinned = false → e.lastUsed.micros ≤ d.lastUsed.micros

theorem leastRecent?_eq (s : ContentStore) : s.leastRecent? =
    ((s.entries.filter fun e => !e.2.flags.pinned).argmin fun e => e.2.lastUsed.micros).map (·.1) := by
  rw [leastRecent?, List.argmin]
  congr 2
  funext oldest e
  cases oldest <;> rfl

/-- Unless all entries are pinned, there is one that may go. -/
theorem leastRecent?_cases (s : ContentStore) :
    s.leastRecent? = none ∧ s.AllPinned ∨ ∃ key e, s.leastRecent? = some key ∧ s.Oldest key e := by
  have hmem : ∀ {key e}, (key, e) ∈ s.entries.filter (fun e => !e.2.flags.pinned) ↔
      s.get? key = some e ∧ e.flags.pinned = false := by
    intro key e
    simp only [entries, List.mem_filter, Slots.mem_entries, Bool.not_eq_true', get?]
  rw [leastRecent?_eq]
  cases hmin : (s.entries.filter fun e => !e.2.flags.pinned).argmin
      fun e => e.2.lastUsed.micros with
  | none =>
    refine .inl ⟨rfl, fun key e he => ?_⟩
    rw [← Bool.not_eq_false]
    intro hfree
    have hin := hmem.2 ⟨he, hfree⟩
    rw [List.argmin_eq_none.1 hmin] at hin
    cases hin
  | some victim =>
    obtain ⟨key, e⟩ := victim
    obtain ⟨he, hfree⟩ := hmem.1 (List.argmin_mem hmin)
    have hleast : ∀ d ∈ s.entries.filter (fun d => !d.2.flags.pinned),
        e.lastUsed.micros ≤ d.2.lastUsed.micros := by
      intro d hd
      exact List.le_of_mem_argmin (f := fun d : ContentKey × StoredContent => d.2.lastUsed.micros)
        hd hmin
    exact .inr ⟨key, e, rfl, he, hfree, fun k d hd hloose => hleast (k, d) (hmem.2 ⟨hd, hloose⟩)⟩

theorem evict_cases (s : ContentStore) :
    s.evict = (none, s) ∧ s.AllPinned ∨
      ∃ key e, s.evict = (some e, (s.remove key).2) ∧ s.Oldest key e := by
  unfold evict
  rcases s.leastRecent?_cases with ⟨hnone, hall⟩ | ⟨key, e, hsome, hoff⟩
  · rw [hnone]
    exact .inl ⟨rfl, hall⟩
  · rw [hsome]
    have hremoved : s.remove key = (some e, (s.remove key).2) :=
      Prod.ext ((Slots.remove_fst s.slots key).trans hoff.stored) rfl
    exact .inr ⟨key, e, hremoved, hoff⟩

/-! ## What becomes of a packet -/

/-- At most one entry went. -/
def Spares (s t : ContentStore) : Prop := t = s ∨ ∃ key, t = (s.remove key).2

theorem Spares.wellFormed {t : ContentStore} (ht : s.Spares t) (h : s.slots.WellFormed) :
    t.slots.WellFormed := by
  obtain rfl | ⟨key, rfl⟩ := ht
  · exact h
  · exact Slots.wellFormed_remove h key

theorem Spares.get? {t : ContentStore} (ht : s.Spares t) {key : ContentKey} {e : StoredContent}
    (h : t.get? key = some e) : s.get? key = some e := by
  obtain rfl | ⟨k, rfl⟩ := ht
  · exact h
  · have hget := (Slots.get?_remove s.slots k key).symm.trans h
    split at hget
    · cases hget
    · exact hget

/-- The store takes a packet in: it is not there yet, it is to be kept, and there is room. -/
structure Takes (s : ContentStore) (packet : Packet) (flags : ContentFlags) : Prop where
  new : s.duplicate? packet = none
  kept : s.limit ≠ 0 ∨ flags.pinned = true
  room : ¬(s.isFull = true ∧ s.AllPinned)

section

variable {packet : Packet} {flags : ContentFlags} {now : Instant}

/-- What may become of a packet that is to be stored, and of the store. -/
inductive Inserted (s : ContentStore) (packet : Packet) (flags : ContentFlags) (now : Instant) :
    StoreOutcome × ContentStore → Prop where
  /-- The same bytes are there already. -/
  | present (h : s.duplicate? packet ≠ none) : Inserted s packet flags now (.unchanged, s)
  /-- Nothing is kept that is not pinned. -/
  | unwanted (hlimit : s.limit = 0) (hloose : flags.pinned = false) :
      Inserted s packet flags now (.unchanged, s)
  | refused (hnew : s.duplicate? packet = none) (hfull : s.isFull = true) (hall : s.AllPinned) :
      Inserted s packet flags now (.full, s)
  | replaced {key : ContentKey} {e : StoredContent} (hnew : s.duplicate? packet = none)
      (hfull : s.isFull = true) (hoff : s.Oldest key e) :
      Inserted s packet flags now (.stored ((s.remove key).2.add packet flags now).1 (some e),
        ((s.remove key).2.add packet flags now).2)
  | added (hnew : s.duplicate? packet = none) (hkept : s.limit ≠ 0 ∨ flags.pinned = true)
      (hroom : s.isFull = false) :
      Inserted s packet flags now
        (.stored (s.add packet flags now).1 none, (s.add packet flags now).2)

theorem insert_cases (s : ContentStore) (packet : Packet) (flags : ContentFlags) (now : Instant) :
    s.Inserted packet flags now (s.insert packet flags now) := by
  unfold insert
  split
  · rename_i hunwanted
    simp only [isEnabled, Bool.or_eq_true, Bool.and_eq_true, Bool.not_eq_true', bne_eq_false_iff_eq,
      Option.isSome_iff_ne_none] at hunwanted
    rcases hunwanted with hpresent | ⟨hlimit, hloose⟩
    · exact .present hpresent
    · exact .unwanted hlimit hloose
  · rename_i hwanted
    rw [Bool.or_eq_true, not_or, Option.not_isSome_iff_eq_none] at hwanted
    split
    · rename_i hfull
      rcases s.evict_cases with ⟨hnone, hall⟩ | ⟨key, e, hsome, hoff⟩
      · rw [hnone]
        exact .refused hwanted.1 hfull hall
      · rw [hsome]
        exact .replaced hwanted.1 hfull hoff
    · rename_i hroom
      refine .added hwanted.1 ?_ (eq_false_of_ne_true hroom)
      simpa [isEnabled, or_iff_not_imp_left] using hwanted.2

/-- A packet that is taken in is put beside the others, all but one at most that is not pinned. -/
theorem insert_of_takes (h : s.Takes packet flags) (now : Instant) :
    ∃ t key evicted, s.Spares t ∧
      (∀ k e, s.get? k = some e → e.flags.pinned = true → t.get? k = some e) ∧
      s.insert packet flags now = (.stored key evicted, (t.add packet flags now).2) := by
  have hcases := s.insert_cases packet flags now
  generalize s.insert packet flags now = out at *
  cases hcases with
  | present hthere => exact absurd h.new hthere
  | unwanted hlimit hloose =>
    rcases h.kept with hkept | hpinned
    · exact absurd hlimit hkept
    · cases hloose.symm.trans hpinned
  | refused _ hfull hall => exact (h.room ⟨hfull, hall⟩).elim
  | @replaced key e _ _ hoff =>
    refine ⟨(s.remove key).2, _, _, .inr ⟨key, rfl⟩, fun k stored hk hpinned => ?_, rfl⟩
    have hother : k ≠ key := by
      rintro rfl
      cases hoff.stored.symm.trans hk
      cases hoff.loose.symm.trans hpinned
    exact ((Slots.get?_remove s.slots key k).trans (if_neg hother)).trans hk
  | added => exact ⟨s, _, _, .inl rfl, fun _ _ hk _ => hk, rfl⟩

/-- A packet that is not taken in changes nothing. It is there already, it is not to be kept, or
    there is no room for it. -/
theorem insert_cases_of_not_takes (h : ¬s.Takes packet flags) (now : Instant) :
    s.insert packet flags now = (.unchanged, s) ∧
        (s.duplicate? packet ≠ none ∨ flags.pinned = false) ∨
      s.insert packet flags now = (.full, s) ∧ s.duplicate? packet = none := by
  have hcases := s.insert_cases packet flags now
  generalize s.insert packet flags now = out at *
  cases hcases with
  | present hthere => exact .inl ⟨rfl, .inl hthere⟩
  | unwanted _ hloose => exact .inl ⟨rfl, .inr hloose⟩
  | refused hnew => exact .inr ⟨rfl, hnew⟩
  | replaced hnew hfull hoff =>
    refine absurd ⟨hnew, .inl ?_, fun hno => ?_⟩ h
    · rintro hlimit
      simp [isFull, hlimit] at hfull
    · cases hoff.loose.symm.trans (hno.2 _ _ hoff.stored)
  | added hnew hkept hroom =>
    refine absurd ⟨hnew, hkept, fun hno => ?_⟩ h
    cases hroom.symm.trans hno.1

theorem insert_of_not_takes (h : ¬s.Takes packet flags) (now : Instant) :
    (s.insert packet flags now).2 = s := by
  rcases insert_cases_of_not_takes h now with ⟨heq, -⟩ | ⟨heq, -⟩ <;> rw [heq]

theorem wellFormed_insert (h : s.slots.WellFormed) (packet : Packet) (flags : ContentFlags)
    (now : Instant) : (s.insert packet flags now).2.slots.WellFormed := by
  by_cases htakes : s.Takes packet flags
  · obtain ⟨t, _, _, ht, -, heq⟩ := insert_of_takes htakes now
    rw [heq]
    exact Slots.wellFormed_insert (ht.wellFormed h) _
  · rw [insert_of_not_takes htakes]
    exact h

/-- Nothing else is new in the store. -/
theorem entry_of_get?_insert {key : ContentKey} {e : StoredContent}
    (h : (s.insert packet flags now).2.get? key = some e) :
    e = ⟨packet, flags, now, now, 0⟩ ∨ s.get? key = some e := by
  by_cases htakes : s.Takes packet flags
  · obtain ⟨t, _, _, ht, -, heq⟩ := insert_of_takes htakes now
    rw [heq] at h
    exact (Slots.get?_of_get?_insert h).imp_right ht.get?
  · rw [insert_of_not_takes htakes] at h
    exact .inr h

theorem get?_of_get?_insert {key : ContentKey} {e : StoredContent}
    (h : (s.insert packet flags now).2.get? key = some e) :
    e.packet = packet ∨ s.get? key = some e :=
  (entry_of_get?_insert h).imp_left fun heq => by rw [heq]

/-- A packet that finds no room leaves the store as it is. -/
theorem insert_full {t : ContentStore} (h : s.insert packet flags now = (.full, t)) : t = s := by
  by_cases htakes : s.Takes packet flags
  · obtain ⟨_, _, _, -, -, heq⟩ := insert_of_takes htakes now
    cases heq.symm.trans h
  · rw [← insert_of_not_takes htakes now, h]

/-- A packet that was not in the store is there afterwards if and only if the store takes it in. -/
theorem holds_insert_iff (h : s.slots.WellFormed) (hnew : s.duplicate? packet = none)
    (flags : ContentFlags) (now : Instant) :
    (∃ key e, (s.insert packet flags now).2.get? key = some e ∧ e.packet = packet) ↔
      s.Takes packet flags := by
  constructor
  · rintro ⟨key, e, he, rfl⟩
    refine Classical.not_not.1 fun htakes => ?_
    rw [insert_of_not_takes htakes] at he
    have hother := Slots.find?_eq_none_iff.1 hnew key e he
    simp [Packet.sameBytes] at hother
  · intro htakes
    obtain ⟨t, _, _, ht, -, heq⟩ := insert_of_takes htakes now
    rw [heq]
    exact ⟨_, _, Slots.get?_insert_self (ht.wellFormed h) _, rfl⟩

end

end ContentStore

end NameRelay
