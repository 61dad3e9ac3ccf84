-- SUMMARY: The generation of a slot counts its removals.
import NameRelay.Proofs.Table.Slots

/-!
# Generations

A slot has a generation, and something is in it or not. An arena grows if generations stay and what
is in a slot stays there, and it shrinks if nothing comes and what goes raises the generation of its
slot. Either way the generation of a slot rises by the number of keys of the slot that resolve no
longer. So it counts removals, up to the size of a word.
-/

namespace NameRelay

namespace Slots

variable {α : Type} {s t u : Slots α}

/-- The generation of a slot, and whether there is an entry in it. -/
def slot? (s : Slots α) (index : Nat) : Option (UInt32 × Bool) :=
  s.slots[index]?.map fun slot => (slot.generation, slot.entry.isSome)

theorem contains_iff_slot? {key : Key α} :
    s.contains key = true ↔ s.slot? key.index = some (key.generation, true) := by
  simp only [contains_iff, get?_eq_some_iff, slot?, Option.map_eq_some_iff, Prod.mk.injEq,
    Option.isSome_iff_exists]
  constructor
  · rintro ⟨a, h⟩
    exact ⟨_, h, rfl, a, rfl⟩
  · rintro ⟨⟨generation, entry⟩, h, rfl, a, rfl⟩
    exact ⟨a, h⟩

/-- A key of another generation than its slot does not resolve. -/
theorem get?_of_generation_ne {key : Key α} {generation : UInt32} {taken : Bool}
    (h : s.slot? key.index = some (generation, taken)) (hne : generation ≠ key.generation) :
    s.get? key = none := by
  rw [← Option.not_isSome_iff_eq_none]
  intro hsome
  cases h.symm.trans (contains_iff_slot?.1 hsome)
  exact hne rfl

theorem slot?_eq_of_mapEntries {f : α → α} (h : t.mapEntries f = s.mapEntries f) (index : Nat) :
    t.slot? index = s.slot? index := by
  have hslots := congrArg (fun u : Slots α => u.slot? index) h
  simpa [slot?, mapEntries, Option.map_map, Function.comp_def] using hslots

theorem slot?_eq_none_iff {index : Nat} : s.slot? index = none ↔ s.slots.length ≤ index := by
  rw [slot?, Option.map_eq_none_iff, List.getElem?_eq_none_iff]

/-- The slot of a new entry was vacant, or there was none. -/
theorem slot?_key_insert (h : s.WellFormed) (a : α) :
    s.slot? (s.insert a).1.index = some ((s.insert a).1.generation, false) ∨
      (s.insert a).1 = ⟨s.slots.length, 0⟩ := by
  unfold insert
  split
  · rename_i index free hfree
    obtain ⟨generation, hvacant⟩ := h.vacant index (by simp [hfree])
    exact .inl (by simp [slot?, hvacant])
  · exact .inr rfl

/-- A new entry is in its slot, and all other slots are as they were. -/
theorem slot?_insert (h : s.WellFormed) (a : α) (index : Nat) :
    (s.insert a).2.slot? index =
      if index = (s.insert a).1.index then some ((s.insert a).1.generation, true)
      else s.slot? index := by
  split
  · rename_i hindex
    rw [hindex]
    exact contains_iff_slot?.1 (contains_iff.2 ⟨a, get?_insert_self h a⟩)
  · rename_i hindex
    unfold insert at hindex ⊢
    split at hindex
    · rename_i free rest _
      simp only [slot?, List.getElem?_set_ne (Ne.symm hindex)]
    · dsimp only at hindex
      simp only [slot?, List.getElem?_append, List.getElem?_singleton]
      split
      · rfl
      · rename_i hge
        rw [if_neg (by omega), List.getElem?_eq_none (Nat.le_of_not_lt hge)]

/-! ## Growing and shrinking -/

/-- Slots keep their generations, and entries stay. -/
def Grows (s t : Slots α) : Prop :=
  ∀ index generation taken, s.slot? index = some (generation, taken) →
    t.slot? index = some (generation, taken) ∨ t.slot? index = some (generation, true)

/-- Slots stay as they are, or lose their entry and have the next generation. -/
def Shrinks (s t : Slots α) : Prop :=
  ∀ index, t.slot? index = s.slot? index ∨
    ∃ generation, s.slot? index = some (generation, true) ∧
      t.slot? index = some (generation + 1, false)

namespace Grows

theorem of_slot? (h : ∀ index, t.slot? index = s.slot? index) : Grows s t :=
  fun index _ _ hslot => .inl ((h index).trans hslot)

theorem trans (h : Grows s t) (h' : Grows t u) : Grows s u := by
  intro index generation taken hslot
  rcases h index generation taken hslot with hsame | htaken
  · exact h' index generation taken hsame
  · exact .inr ((h' index generation true htaken).elim id id)

theorem insert (hs : s.WellFormed) (a : α) : Grows s (s.insert a).2 := by
  intro index generation taken hslot
  rw [slot?_insert hs]
  split
  · rename_i hindex
    rw [hindex] at hslot
    rcases slot?_key_insert hs a with hvacant | hnew
    · cases hslot.symm.trans hvacant
      exact .inr rfl
    · rw [hnew, slot?_eq_none_iff.2 (Nat.le_refl _)] at hslot
      cases hslot
  · exact .inl hslot

end Grows

namespace Shrinks

theorem of_slot? (h : ∀ index, t.slot? index = s.slot? index) : Shrinks s t :=
  fun index => .inl (h index)

theorem trans (h : Shrinks s t) (h' : Shrinks t u) : Shrinks s u := by
  intro index
  rcases h index with hsame | ⟨generation, hhere, hgone⟩
  · rcases h' index with hsame' | ⟨generation, hhere, hgone⟩
    · exact .inl (hsame'.trans hsame)
    · exact .inr ⟨generation, hsame.symm.trans hhere, hgone⟩
  · rcases h' index with hsame' | ⟨next, hnext, -⟩
    · exact .inr ⟨generation, hhere, hsame'.trans hgone⟩
    · cases hgone.symm.trans hnext

theorem remove (s : Slots α) (key : Key α) : Shrinks s (s.remove key).2 := by
  unfold Slots.remove
  split
  · rename_i a ha
    intro index
    by_cases hindex : key.index = index
    · subst hindex
      refine .inr ⟨key.generation, contains_iff_slot?.1 (contains_iff.2 ⟨a, ha⟩), ?_⟩
      simp [slot?, index_lt_of_get? ha]
    · exact .inl (by simp [slot?, List.getElem?_set_ne hindex])
  · exact of_slot? fun _ => rfl

theorem removeAll (s : Slots α) (keys : List (Key α)) : Shrinks s (s.removeAll keys).2 := by
  induction keys generalizing s with
  | nil => exact of_slot? fun _ => rfl
  | cons key keys ih => exact (remove s key).trans (ih _)

end Shrinks

/-! ## Counting what went -/

/-- How many keys of a slot resolve in `s` and no longer in `t`. -/
def lost (s t : Slots α) (index : Nat) : Nat :=
  s.keys.countP fun key => key.index == index && !t.contains key

theorem mem_keys {key : Key α} : key ∈ s.keys ↔ s.contains key = true := by
  simp [keys, contains_iff]

/-- Only the key of the entry that is in a slot can be lost from it. -/
theorem lost_eq {index : Nat} {generation : UInt32} {taken : Bool}
    (h : s.slot? index = some (generation, taken)) :
    s.lost t index = (taken && !t.contains ⟨index, generation⟩).toNat := by
  have hkey : ∀ key ∈ s.keys, (key.index == index && !t.contains key) =
      (key == ⟨index, generation⟩ && !t.contains ⟨index, generation⟩) := by
    intro key hmem
    have hslot := contains_iff_slot?.1 (mem_keys.1 hmem)
    by_cases hindex : key.index = index
    · subst hindex
      cases hslot.symm.trans h
      simp
    · have hne : key ≠ ⟨index, generation⟩ := fun heq => hindex (congrArg Key.index heq)
      rw [beq_false_of_ne hindex, beq_false_of_ne hne]
      rfl
  have hlost : s.lost t index = s.keys.countP fun key =>
      key == ⟨index, generation⟩ && !t.contains ⟨index, generation⟩ :=
    List.countP_congr fun key hmem => by rw [hkey key hmem]
  have hin : (⟨index, generation⟩ : Key α) ∈ s.keys ↔ taken = true := by
    rw [mem_keys, contains_iff_slot?, h]
    simp
  rw [hlost]
  cases hgone : t.contains ⟨index, generation⟩ with
  | true => simp
  | false =>
    have hcount := s.nodup_keys.count (a := (⟨index, generation⟩ : Key α))
    rw [List.count] at hcount
    cases taken <;> simpa [hin] using hcount

/-- The generation of a slot rises by what is lost from it, and an entry that is not lost stays. -/
theorem slot?_of_grows_or_shrinks (h : Grows s t ∨ Shrinks s t) {index : Nat} {generation : UInt32}
    {taken : Bool} (hslot : s.slot? index = some (generation, taken)) :
    ∃ left, t.slot? index = some (generation + UInt32.ofNat (s.lost t index), left) ∧
      (s.lost t index = 0 → taken = true → left = true) := by
  have hstays {left : Bool} (hkept : t.slot? index = some (generation, left))
      (hleft : taken = true → left = true) :
      ∃ left, t.slot? index = some (generation + UInt32.ofNat (s.lost t index), left) ∧
        (s.lost t index = 0 → taken = true → left = true) := by
    have hnone : s.lost t index = 0 := by
      rw [lost_eq hslot]
      cases taken with
      | false => rfl
      | true =>
        rw [contains_iff_slot?.2 (hkept.trans (by rw [hleft rfl]))]
        rfl
    exact ⟨left, by simpa [hnone] using hkept, fun _ => hleft⟩
  rcases h with hgrows | hshrinks
  · rcases hgrows index generation taken hslot with hkept | hkept
    · exact hstays hkept id
    · exact hstays hkept fun _ => rfl
  · rcases hshrinks index with hkept | ⟨old, hhere, hgone⟩
    · exact hstays (hkept.trans hslot) id
    · cases hslot.symm.trans hhere
      have hone : s.lost t index = 1 := by
        have hdead : t.get? ⟨index, generation⟩ = none :=
          get?_of_generation_ne hgone (by simp)
        rw [lost_eq hslot, contains, hdead]
        rfl
      rw [hone]
      exact ⟨false, hgone, nofun⟩

end Slots

end NameRelay
