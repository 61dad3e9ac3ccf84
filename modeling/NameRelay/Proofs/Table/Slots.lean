-- SUMMARY: The theory of slots: an arena is a map from keys to entries.
import NameRelay.Table.Slots

/-!
# Slots as a map

Every operation of an arena is described by what it does to `get?`, the map from keys to entries.
The listing of the entries says the same as the map. Insertion needs that free slots are really
vacant, which every operation keeps, as it keeps the count of the entries.
-/

namespace NameRelay

namespace Slots

variable {α β : Type}

/-! ## Well-formed arenas -/

/-- How many of some slots hold an entry. -/
def taken (slots : List (Slot α)) : Nat := slots.countP (·.entry.isSome)

/-- Another slot in a place changes the number of entries by what it holds itself. -/
theorem taken_set {slots : List (Slot α)} {i : Nat} {old : Slot α} (h : slots[i]? = some old)
    (new : Slot α) :
    taken (slots.set i new) + old.entry.isSome.toNat = taken slots + new.entry.isSome.toNat := by
  obtain ⟨hi, rfl⟩ := List.getElem?_eq_some_iff.1 h
  have hset := List.countP_set (p := fun slot : Slot α => slot.entry.isSome) (a := new) hi
  have hpos : slots[i].entry.isSome → 0 < taken slots := fun hold =>
    List.countP_pos_iff.2 ⟨_, List.getElem_mem hi, hold⟩
  rw [taken, hset]
  cases hold : slots[i].entry.isSome with
  | false => cases new.entry.isSome <;> simp [taken]
  | true =>
    have := hpos hold
    unfold taken at this ⊢
    cases new.entry.isSome <;> simp <;> omega

/-- The free slots are vacant, each is listed once, and the entries are counted. -/
structure WellFormed (s : Slots α) : Prop where
  free_nodup : s.free.Nodup
  vacant : ∀ i ∈ s.free, ∃ generation, s.slots[i]? = some ⟨generation, none⟩
  counted : s.size = taken s.slots

@[simp] theorem wellFormed_empty : (empty : Slots α).WellFormed where
  free_nodup := List.nodup_nil
  vacant := by simp [empty]
  counted := rfl

@[simp] theorem get?_empty (key : Key α) : (empty : Slots α).get? key = none := by
  simp [empty, get?]

/-- A key resolves to the entry in its slot, if the slot has the key's generation. -/
theorem get?_eq_some_iff {s : Slots α} {key : Key α} {a : α} :
    s.get? key = some a ↔ s.slots[key.index]? = some ⟨key.generation, some a⟩ := by
  unfold get?
  split
  · rename_i slot hslot
    rw [hslot]
    cases slot with
    | mk generation entry =>
      by_cases h : generation = key.generation <;> simp [h]
  · rename_i hslot
    simp [hslot]

theorem key_ext {k l : Key α} (hi : k.index = l.index) (hg : k.generation = l.generation) :
    k = l := by
  cases k
  cases l
  simp_all

/-- What `get?` says after one slot was replaced. -/
theorem get?_set {s : Slots α} {free : List Nat} {size i : Nat} {slot : Slot α} {key : Key α}
    (hi : i < s.slots.length) :
    (Slots.mk (s.slots.set i slot) free size).get? key =
      if key.index = i then (if slot.generation = key.generation then slot.entry else none)
      else s.get? key := by
  unfold get?
  by_cases h : key.index = i
  · subst h
    simp [hi]
  · simp [List.getElem?_set_ne (Ne.symm h), h]

theorem index_lt_of_get? {s : Slots α} {key : Key α} {a : α} (h : s.get? key = some a) :
    key.index < s.slots.length :=
  (List.getElem?_eq_some_iff.1 (get?_eq_some_iff.1 h)).1

/-- Other keys do not see that the slot of an entry is replaced, if nothing is in it now or its
    generation is the same. -/
theorem get?_set_of_ne {s : Slots α} {free : List Nat} {size : Nat} {slot : Slot α} {key k : Key α}
    {a : α} (ha : s.get? key = some a) (hk : k ≠ key)
    (hslot : slot.entry = none ∨ slot.generation = key.generation) :
    (Slots.mk (s.slots.set key.index slot) free size).get? k = s.get? k := by
  rw [get?_set (index_lt_of_get? ha)]
  split
  · rename_i hindex
    have hgen : key.generation ≠ k.generation := fun h => hk (key_ext hindex h.symm)
    have hbefore : s.get? k = none := by simp [get?, hindex, get?_eq_some_iff.1 ha, hgen]
    rw [hbefore]
    rcases hslot with hnone | hsame
    · rw [hnone, ite_self]
    · rw [hsame, if_neg hgen]
  · rfl

/-! ## Insertion -/

theorem wellFormed_insert {s : Slots α} (h : s.WellFormed) (a : α) :
    (s.insert a).2.WellFormed := by
  unfold insert
  split
  · rename_i index free hfree
    have hnodup := h.free_nodup
    rw [hfree, List.nodup_cons] at hnodup
    refine ⟨hnodup.2, fun i hi => ?_, ?_⟩
    · have hne : index ≠ i := by
        rintro rfl
        exact hnodup.1 hi
      simp only [List.getElem?_set_ne hne]
      exact h.vacant i (by rw [hfree]; exact List.mem_cons_of_mem _ hi)
    · obtain ⟨generation, hvacant⟩ := h.vacant index (by simp [hfree])
      simpa [h.counted, hvacant] using (taken_set hvacant ⟨generation, some a⟩).symm
  · exact ⟨List.nodup_nil, by simp, by simp [h.counted, taken, List.countP_append]⟩

/-- The new key resolves to the new entry. -/
theorem get?_insert_self {s : Slots α} (h : s.WellFormed) (a : α) :
    (s.insert a).2.get? (s.insert a).1 = some a := by
  unfold insert
  split
  · rename_i index free hfree
    obtain ⟨generation, hvacant⟩ := h.vacant index (by simp [hfree])
    have hlt : index < s.slots.length := (List.getElem?_eq_some_iff.1 hvacant).1
    rw [get?_set hlt]
    simp
  · simp [get?]

/-- The new key did not resolve before. -/
theorem get?_insert_fresh {s : Slots α} (h : s.WellFormed) (a : α) :
    s.get? (s.insert a).1 = none := by
  unfold insert
  split
  · rename_i index free hfree
    obtain ⟨generation, hvacant⟩ := h.vacant index (by simp [hfree])
    simp [get?, hvacant]
  · simp [get?]

/-- Every other key resolves as before. -/
theorem get?_insert_of_ne {s : Slots α} (h : s.WellFormed) (a : α) {key : Key α}
    (hne : key ≠ (s.insert a).1) : (s.insert a).2.get? key = s.get? key := by
  unfold insert at hne ⊢
  split at hne
  · rename_i index free hfree
    obtain ⟨generation, hvacant⟩ := h.vacant index (by simp [hfree])
    have hlt : index < s.slots.length := (List.getElem?_eq_some_iff.1 hvacant).1
    rw [get?_set hlt]
    split
    · rename_i hindex
      have hgen : generation ≠ key.generation := by
        rintro rfl
        exact hne (key_ext hindex (by simp [hvacant]))
      simp [get?, hindex, hvacant, hgen]
    · rfl
  · rename_i hfree
    by_cases hi : key.index < s.slots.length
    · simp [get?, List.getElem?_append_left hi]
    · by_cases heq : key.index = s.slots.length
      · have hgen : (0 : UInt32) ≠ key.generation := by
          intro h0
          exact hne (key_ext heq h0.symm)
        simp [get?, heq, hgen]
      · have hlen : (s.slots ++ [(⟨0, some a⟩ : Slot α)]).length ≤ key.index := by
          simp only [List.length_append, List.length_singleton]
          omega
        simp [get?, List.getElem?_eq_none hlen, List.getElem?_eq_none (Nat.le_of_not_lt hi)]

/-- An entry stays where it is when another comes. -/
theorem get?_insert_of_get? {s : Slots α} (h : s.WellFormed) (a : α) {key : Key α} {b : α}
    (hb : s.get? key = some b) : (s.insert a).2.get? key = some b := by
  rw [get?_insert_of_ne h a, hb]
  rintro rfl
  rw [get?_insert_fresh h] at hb
  cases hb

/-- Every entry is the new one or was there before. -/
theorem get?_of_get?_insert {s : Slots α} {a b : α} {key : Key α}
    (h : (s.insert a).2.get? key = some b) : b = a ∨ s.get? key = some b := by
  rw [get?_eq_some_iff] at h ⊢
  unfold insert at h
  split at h
  · rename_i index free _
    by_cases hi : index = key.index
    · subst hi
      obtain ⟨hlt, hslot⟩ := List.getElem?_eq_some_iff.1 h
      rw [List.getElem_set_self] at hslot
      exact .inl (Option.some.inj (congrArg Slot.entry hslot)).symm
    · rw [List.getElem?_set_ne hi] at h
      exact .inr h
  · by_cases hi : key.index < s.slots.length
    · rw [List.getElem?_append_left hi] at h
      exact .inr h
    · rw [List.getElem?_append_right (Nat.le_of_not_lt hi), List.getElem?_singleton] at h
      split at h
      · exact .inl (Option.some.inj (congrArg Slot.entry (Option.some.inj h))).symm
      · cases h

/-! ## Changing and removing entries -/

theorem get?_modify (s : Slots α) (key : Key α) (f : α → α) (k : Key α) :
    (s.modify key f).get? k = if k = key then (s.get? k).map f else s.get? k := by
  unfold modify
  split
  · rename_i a ha
    by_cases hk : k = key
    · subst hk
      rw [get?_set (index_lt_of_get? ha)]
      simp [ha]
    · rw [if_neg hk, get?_set_of_ne ha hk (.inr rfl)]
  · rename_i hnone
    by_cases hk : k = key
    · subst hk
      simp [hnone]
    · simp [hk]

/-- An entry that is there after a change was there before, and is the one that was changed maybe. -/
theorem get?_of_get?_modify {s : Slots α} {key k : Key α} {f : α → α} {a : α}
    (h : (s.modify key f).get? k = some a) :
    ∃ old, s.get? k = some old ∧ (a = old ∨ k = key ∧ a = f old) := by
  rw [get?_modify] at h
  split at h
  · rename_i hk
    obtain ⟨old, hold, rfl⟩ := Option.map_eq_some_iff.1 h
    exact ⟨old, hold, .inr ⟨hk, rfl⟩⟩
  · exact ⟨a, h, .inl rfl⟩

/-- Of two changes of an entry the later one is made of what the earlier one left. -/
theorem modify_modify (s : Slots α) (key : Key α) (f g : α → α) :
    (s.modify key f).modify key g = s.modify key fun a => g (f a) := by
  have hget := s.get?_modify key f key
  rw [if_pos rfl] at hget
  cases ha : s.get? key with
  | none =>
    rw [ha] at hget
    simp only [modify, ha]
  | some a =>
    rw [ha] at hget
    rw [modify, hget]
    simp only [modify, ha, Option.map_some, List.set_set]

/-- A slot that holds an entry is not free. -/
theorem WellFormed.not_mem_free {s : Slots α} (h : s.WellFormed) {key : Key α} {a : α}
    (ha : s.get? key = some a) : key.index ∉ s.free := by
  intro hmem
  obtain ⟨generation, hvacant⟩ := h.vacant _ hmem
  rw [get?_eq_some_iff.1 ha] at hvacant
  simp at hvacant

theorem wellFormed_modify {s : Slots α} (h : s.WellFormed) (key : Key α) (f : α → α) :
    (s.modify key f).WellFormed := by
  unfold modify
  split
  · rename_i a ha
    refine ⟨h.free_nodup, fun i hi => ?_, ?_⟩
    · have hne : key.index ≠ i := by
        rintro rfl
        exact h.not_mem_free ha hi
      simp only [List.getElem?_set_ne hne]
      exact h.vacant i hi
    · simpa [h.counted] using
        (taken_set (get?_eq_some_iff.1 ha) ⟨key.generation, some (f a)⟩).symm
  · exact h

theorem wellFormed_remove {s : Slots α} (h : s.WellFormed) (key : Key α) :
    (s.remove key).2.WellFormed := by
  unfold remove
  split
  · rename_i a ha
    have hfree := h.not_mem_free ha
    refine ⟨List.nodup_cons.2 ⟨hfree, h.free_nodup⟩, fun i hi => ?_, ?_⟩
    · by_cases hne : key.index = i
      · subst hne
        exact ⟨key.generation + 1, by simp [index_lt_of_get? ha]⟩
      · simp only [List.getElem?_set_ne hne]
        exact h.vacant i ((List.mem_cons.1 hi).resolve_left (Ne.symm hne))
    · have hcount : taken (s.slots.set key.index ⟨key.generation + 1, none⟩) + 1 = taken s.slots := by
        simpa using taken_set (get?_eq_some_iff.1 ha) ⟨key.generation + 1, none⟩
      exact Nat.sub_eq_of_eq_add (h.counted.trans hcount.symm)
  · exact h

@[simp] theorem remove_fst (s : Slots α) (key : Key α) : (s.remove key).1 = s.get? key := by
  unfold remove
  split <;> simp_all

theorem get?_remove (s : Slots α) (key k : Key α) :
    (s.remove key).2.get? k = if k = key then none else s.get? k := by
  unfold remove
  split
  · rename_i a ha
    by_cases hk : k = key
    · subst hk
      rw [get?_set (index_lt_of_get? ha)]
      simp
    · rw [if_neg hk, get?_set_of_ne ha hk (.inl rfl)]
  · rename_i hnone
    by_cases hk : k = key
    · subst hk
      simp [hnone]
    · simp [hk]

@[simp] theorem get?_mapEntries (s : Slots α) (f : α → α) (key : Key α) :
    (s.mapEntries f).get? key = (s.get? key).map f := by
  unfold mapEntries get?
  simp only [List.getElem?_map]
  cases s.slots[key.index]? with
  | none => rfl
  | some slot =>
    by_cases h : slot.generation = key.generation <;> simp [h]

theorem taken_map (slots : List (Slot α)) (f : α → α) :
    taken (slots.map fun slot => { slot with entry := slot.entry.map f }) = taken slots := by
  simp only [taken, List.countP_map, Function.comp_def, Option.isSome_map]

theorem wellFormed_mapEntries {s : Slots α} (h : s.WellFormed) (f : α → α) :
    (s.mapEntries f).WellFormed := by
  refine ⟨h.free_nodup, fun i hi => ?_, h.counted.trans (taken_map s.slots f).symm⟩
  obtain ⟨generation, hvacant⟩ := h.vacant i hi
  exact ⟨generation, by simp [mapEntries, hvacant]⟩

theorem wellFormed_of_mapEntries {s : Slots α} {f : α → α} (h : (s.mapEntries f).WellFormed) :
    s.WellFormed := by
  refine ⟨h.free_nodup, fun i hi => ?_, h.counted.trans (taken_map s.slots f)⟩
  obtain ⟨generation, hvacant⟩ := h.vacant i hi
  simp only [mapEntries, List.getElem?_map, Option.map_eq_some_iff] at hvacant
  obtain ⟨slot, hslot, hmapped⟩ := hvacant
  cases slot with
  | mk g entry =>
    cases entry with
    | none => exact ⟨g, hslot⟩
    | some a => simp at hmapped

theorem get?_removeAll (s : Slots α) (keys : List (Key α)) (k : Key α) :
    (s.removeAll keys).2.get? k = if k ∈ keys then none else s.get? k := by
  induction keys generalizing s with
  | nil => simp [removeAll]
  | cons key keys ih =>
    simp only [removeAll, ih, get?_remove, List.mem_cons]
    by_cases hk : k = key <;> simp [hk]

theorem wellFormed_removeAll {s : Slots α} (h : s.WellFormed) (keys : List (Key α)) :
    (s.removeAll keys).2.WellFormed := by
  induction keys generalizing s with
  | nil => exact h
  | cons key keys ih => exact ih (wellFormed_remove h key)

/-! ## The listing -/

theorem mem_entriesFrom {slots : List (Slot α)} {start : Nat} {key : Key α} {a : α} :
    (key, a) ∈ entriesFrom start slots ↔
      start ≤ key.index ∧ slots[key.index - start]? = some ⟨key.generation, some a⟩ := by
  induction slots generalizing start with
  | nil => simp [entriesFrom]
  | cons slot rest ih =>
    have hrest : (key, a) ∈ entriesFrom (start + 1) rest ↔
        start < key.index ∧
          (slot :: rest)[key.index - start]? = some ⟨key.generation, some a⟩ := by
      rw [ih]
      refine and_congr_right fun hlt => ?_
      rw [show key.index - start = (key.index - (start + 1)) + 1 by omega,
        List.getElem?_cons_succ]
    have hhead : start = key.index → (slot :: rest)[key.index - start]? = some slot := by
      rintro rfl
      simp
    cases slot with
    | mk generation entry =>
      cases entry with
      | none =>
        simp only [entriesFrom, hrest]
        constructor
        · exact fun h => ⟨Nat.le_of_lt h.1, h.2⟩
        · rintro ⟨hle, h⟩
          refine ⟨Nat.lt_of_le_of_ne hle fun heq => ?_, h⟩
          rw [hhead heq] at h
          simp at h
      | some b =>
        simp only [entriesFrom, List.mem_cons, Prod.mk.injEq, hrest]
        constructor
        · rintro (⟨rfl, rfl⟩ | h)
          · simp
          · exact ⟨Nat.le_of_lt h.1, h.2⟩
        · rintro ⟨hle, h⟩
          by_cases heq : start = key.index
          · rw [hhead heq] at h
            simp only [Option.some.injEq, Slot.mk.injEq] at h
            exact .inl ⟨key_ext heq.symm h.1.symm, h.2.symm⟩
          · exact .inr ⟨Nat.lt_of_le_of_ne hle heq, h⟩

/-- The listing holds what the map says. -/
@[simp] theorem mem_entries {s : Slots α} {key : Key α} {a : α} :
    (key, a) ∈ s.entries ↔ s.get? key = some a := by
  rw [entries, mem_entriesFrom, get?_eq_some_iff]
  simp

/-- No key is listed twice. -/
theorem nodup_keys (s : Slots α) : s.keys.Nodup := by
  have hfrom : ∀ (slots : List (Slot α)) (start : Nat),
      ((entriesFrom start slots).map (·.1)).Nodup := by
    intro slots
    induction slots with
    | nil => exact fun _ => List.nodup_nil
    | cons slot rest ih =>
      intro start
      obtain ⟨generation, entry⟩ := slot
      cases entry with
      | none => exact ih (start + 1)
      | some a =>
        refine List.nodup_cons.2 ⟨fun hmem => ?_, ih (start + 1)⟩
        obtain ⟨⟨key, b⟩, hin, heq⟩ := List.mem_map.1 hmem
        have hlater := (mem_entriesFrom.1 hin).1
        rw [show key = ⟨start, generation⟩ from heq] at hlater
        exact absurd hlater (Nat.not_succ_le_self start)
  exact hfrom s.slots 0

/-- The listing is as long as the count says. -/
theorem WellFormed.length_entries {s : Slots α} (h : s.WellFormed) : s.entries.length = s.size := by
  have hfrom : ∀ (slots : List (Slot α)) (start : Nat),
      (entriesFrom start slots).length = taken slots := by
    intro slots
    induction slots with
    | nil => exact fun _ => rfl
    | cons slot rest ih =>
      intro start
      obtain ⟨generation, entry⟩ := slot
      cases entry with
      | none => simpa [entriesFrom, taken] using ih (start + 1)
      | some a => simpa [entriesFrom, taken] using ih (start + 1)
  rw [h.counted]
  exact hfrom s.slots 0

theorem contains_iff {s : Slots α} {key : Key α} :
    s.contains key = true ↔ ∃ a, s.get? key = some a := Option.isSome_iff_exists

/-- A search that succeeds names an entry that passes. -/
theorem get?_of_find? {s : Slots α} {p : α → Bool} {key : Key α} (h : s.find? p = some key) :
    ∃ a, s.get? key = some a ∧ p a = true := by
  obtain ⟨⟨k, a⟩, hfind, rfl⟩ := Option.map_eq_some_iff.1 h
  exact ⟨a, mem_entries.1 (List.mem_of_find?_eq_some hfind), by
    simpa using List.find?_some hfind⟩

/-- A search that fails has tried every entry. -/
theorem find?_eq_none_iff {s : Slots α} {p : α → Bool} :
    s.find? p = none ↔ ∀ key a, s.get? key = some a → p a = false := by
  simp [find?, Option.map_eq_none_iff, List.find?_eq_none]

theorem entries_mapEntries (s : Slots α) (f : α → α) :
    (s.mapEntries f).entries = s.entries.map fun e => (e.1, f e.2) := by
  have hfrom (slots : List (Slot α)) (start : Nat) :
      entriesFrom start (slots.map fun slot => { slot with entry := slot.entry.map f }) =
        (entriesFrom start slots).map fun e => (e.1, f e.2) := by
    induction slots generalizing start with
    | nil => rfl
    | cons slot rest ih =>
      obtain ⟨generation, entry⟩ := slot
      cases entry with
      | none => exact ih (start + 1)
      | some a => exact congrArg ((⟨start, generation⟩, f a) :: ·) (ih (start + 1))
  exact hfrom s.slots 0

/-- Finding an entry sees of it what the test sees. -/
theorem find?_mapEntries (s : Slots α) (f : α → α) (p : α → Bool) :
    (s.mapEntries f).find? p = s.find? fun a => p (f a) := by
  rw [find?, find?, entries_mapEntries, List.find?_map, Option.map_map]
  rfl

/-- A new entry is found if it is the first of its kind. -/
theorem find?_insert_of_none {s : Slots α} (h : s.WellFormed) {p : α → Bool}
    (hnone : s.find? p = none) {a : α} (ha : p a = true) :
    (s.insert a).2.find? p = some (s.insert a).1 := by
  cases hfound : (s.insert a).2.find? p with
  | none =>
    have hmiss := find?_eq_none_iff.1 hfound (s.insert a).1 a (get?_insert_self h a)
    rw [ha] at hmiss
    cases hmiss
  | some key =>
    obtain ⟨b, hb, hpb⟩ := get?_of_find? hfound
    by_cases hkey : key = (s.insert a).1
    · rw [hkey]
    · rw [get?_insert_of_ne h a hkey] at hb
      have hmiss := find?_eq_none_iff.1 hnone key b hb
      rw [hpb] at hmiss
      cases hmiss

/-! ## Removal by a test -/

/-- A visitor who remembers nothing changes every entry alike. -/
theorem drain_eq (s : Slots α) (change : α → α) (doomed : α → Bool) :
    s.drain change doomed = (s.mapEntries change).removeAll
      (((s.mapEntries change).entries.filter fun e => doomed e.2).map (·.1)) := by
  have hfrom : ∀ (slots : List (Slot α)) (start : Nat),
      (visitFrom (fun _ a => (pure (change a, doomed (change a)) : StateM Unit (α × Bool))) start
          slots ()).1 =
        (slots.map (fun slot => { slot with entry := slot.entry.map change }),
          ((entriesFrom start (slots.map fun slot => { slot with entry := slot.entry.map change })).filter
            fun e => doomed e.2).map (·.1)) := by
    intro slots
    induction slots with
    | nil => exact fun _ => rfl
    | cons slot rest ih =>
      intro start
      obtain ⟨generation, entry⟩ := slot
      cases entry with
      | none => exact congrArg (fun out => (_ :: out.1, out.2)) (ih (start + 1))
      | some a =>
        have hrest := congrArg (fun out : List (Slot α) × List (Key α) =>
          ((⟨generation, some (change a)⟩ : Slot α) :: out.1,
            if doomed (change a) then ⟨start, generation⟩ :: out.2 else out.2)) (ih (start + 1))
        refine hrest.trans (Prod.ext rfl ?_)
        cases hd : doomed (change a) <;> simp [entriesFrom, hd]
  rw [drain, sift, hfrom s.slots 0]
  rfl

/-- After the changed entries that a test selects were removed, the others are left, changed. -/
theorem get?_drain (s : Slots α) (change : α → α) (doomed : α → Bool) (key : Key α) :
    (s.drain change doomed).2.get? key =
      ((s.get? key).map change).filter fun a => !doomed a := by
  have hmem : key ∈ ((s.mapEntries change).entries.filter fun e => doomed e.2).map (·.1) ↔
      ∃ a, (s.mapEntries change).get? key = some a ∧ doomed a = true := by
    simp only [List.mem_map, List.mem_filter, Prod.exists, mem_entries]
    constructor
    · rintro ⟨k, a, ⟨hget, hd⟩, rfl⟩
      exact ⟨a, hget, hd⟩
    · rintro ⟨a, hget, hd⟩
      exact ⟨key, a, ⟨hget, hd⟩, rfl⟩
  rw [drain_eq, get?_removeAll]
  cases hget : (s.mapEntries change).get? key with
  | none =>
    rw [get?_mapEntries] at hget
    simp [hget]
  | some a =>
    rw [hget] at hmem
    rw [get?_mapEntries] at hget
    rw [hget]
    by_cases hd : doomed a = true
    · rw [if_pos (hmem.2 ⟨a, rfl, hd⟩)]
      simp [Option.filter, hd]
    · rw [if_neg]
      · simp [Option.filter, hd]
      · intro hin
        obtain ⟨b, hb, hdb⟩ := hmem.1 hin
        cases hb
        exact hd hdb

theorem wellFormed_drain {s : Slots α} (h : s.WellFormed) (change : α → α) (doomed : α → Bool) :
    (s.drain change doomed).2.WellFormed := by
  rw [drain_eq]
  exact wellFormed_removeAll (wellFormed_mapEntries h change) _

theorem get?_removeWhere (s : Slots α) (doomed : α → Bool) (key : Key α) :
    (s.removeWhere doomed).2.get? key = (s.get? key).filter fun a => !doomed a := by
  rw [removeWhere, get?_drain]
  simp

theorem wellFormed_removeWhere {s : Slots α} (h : s.WellFormed) (doomed : α → Bool) :
    (s.removeWhere doomed).2.WellFormed := wellFormed_drain h id doomed

/-! ## Erasing what an entry does not need -/

/-- A change that does not change the entry under the key changes nothing. -/
theorem modify_eq_self {s : Slots α} {key : Key α} {f : α → α}
    (h : ∀ a, s.get? key = some a → f a = a) : s.modify key f = s := by
  unfold modify
  split
  · rename_i a ha
    have hslot := get?_eq_some_iff.1 ha
    obtain ⟨hindex, hget⟩ := List.getElem?_eq_some_iff.1 hslot
    rw [h a ha, ← hget, List.set_getElem_self]
  · rfl

/-- A change of all entries that changes none changes nothing. -/
theorem mapEntries_eq_self {s : Slots α} {f : α → α}
    (h : ∀ key a, s.get? key = some a → f a = a) : s.mapEntries f = s := by
  have hslots : s.slots.map (fun slot => { slot with entry := slot.entry.map f }) = s.slots := by
    apply List.ext_getElem?
    intro i
    rw [List.getElem?_map]
    cases hslot : s.slots[i]? with
    | none => rfl
    | some slot =>
      obtain ⟨generation, entry⟩ := slot
      cases entry with
      | none => rfl
      | some a =>
        have hget : s.get? ⟨i, generation⟩ = some a := get?_eq_some_iff.2 hslot
        simp [h _ a hget]
  rw [mapEntries, hslots]

/-- A change of an entry that an erasure hides is not seen after the erasure. -/
theorem mapEntries_modify {s : Slots α} {key : Key α} {f g : α → α}
    (h : ∀ a, s.get? key = some a → g (f a) = g a) :
    (s.modify key f).mapEntries g = s.mapEntries g := by
  unfold modify
  split
  · rename_i a ha
    have hslot := get?_eq_some_iff.1 ha
    simp only [mapEntries, Slots.mk.injEq, and_true, List.map_set, Option.map_some, h a ha]
    apply List.ext_getElem?
    intro i
    by_cases hi : key.index = i
    · subst hi
      rw [List.getElem?_set_self (by simp [index_lt_of_get? ha]), List.getElem?_map, hslot]
      rfl
    · simp [List.getElem?_set_ne hi]
  · rfl

/-- A change of one entry and a change of all may change places if they do so for that entry. -/
theorem modify_mapEntries {s : Slots α} {key : Key α} {f g h : α → α}
    (hcomm : ∀ a, s.get? key = some a → f (g a) = g (h a)) :
    (s.mapEntries g).modify key f = (s.modify key h).mapEntries g := by
  unfold modify
  rw [get?_mapEntries]
  cases ha : s.get? key with
  | none => rfl
  | some a => simp [mapEntries, List.map_set, hcomm a ha]

end Slots

end NameRelay
