-- SUMMARY: The order of the listing of an arena, what becomes of it, and of the number of its entries.
import Mathlib.Data.List.Nodup
import NameRelay.Proofs.Table.Slots

/-!
# Listings

An arena lists its entries in the order of their slots, and slots are used again in an order of their
own. What an operation does to the listing is therefore said up to order: an entry comes, goes, or
has another in its place. The number of entries follows.
-/

namespace NameRelay

namespace Slots

variable {α : Type} {s : Slots α} {key : Key α} {a : α}

theorem nodup_entries (s : Slots α) : s.entries.Nodup := .of_map _ s.nodup_keys

/-- Two arenas that resolve the same keys list the same entries. -/
theorem entries_perm_of_mem_iff {l : List (Key α × α)} (hl : l.Nodup)
    (h : ∀ k b, (k, b) ∈ l ↔ s.get? k = some b) : s.entries.Perm l :=
  (List.perm_ext_iff_of_nodup s.nodup_entries hl).2 fun ⟨k, b⟩ => mem_entries.trans (h k b).symm

/-- Entries are listed in the order of their slots. -/
theorem pairwise_entries (s : Slots α) : s.entries.Pairwise fun d e => d.1.index < e.1.index := by
  have hfrom : ∀ (slots : List (Slot α)) (start : Nat),
      (entriesFrom start slots).Pairwise fun d e => d.1.index < e.1.index := by
    intro slots
    induction slots with
    | nil => exact fun _ => .nil
    | cons slot rest ih =>
      intro start
      obtain ⟨generation, entry⟩ := slot
      cases entry with
      | none => exact ih (start + 1)
      | some a =>
        refine List.pairwise_cons.2 ⟨fun e he => ?_, ih (start + 1)⟩
        exact (mem_entriesFrom.1 he).1
  exact hfrom s.slots 0

/-! ## Entries that come, go and change -/

theorem mem_filter_entries {k : Key α} {b : α} :
    (k, b) ∈ s.entries.filter (fun e => e.1 ≠ key) ↔ k ≠ key ∧ s.get? k = some b := by
  rw [List.mem_filter, mem_entries, decide_eq_true_iff]
  exact and_comm

/-- An entry in the place of those that a key lists. -/
theorem nodup_cons_filter (s : Slots α) (key : Key α) (a : α) :
    ((key, a) :: s.entries.filter fun e => e.1 ≠ key).Nodup := by
  refine List.nodup_cons.2 ⟨fun hmem => ?_, s.nodup_entries.filter _⟩
  exact (mem_filter_entries.1 hmem).1 rfl

theorem entries_insert (h : s.WellFormed) (a : α) :
    (s.insert a).2.entries.Perm (((s.insert a).1, a) :: s.entries) := by
  have hfresh := get?_insert_fresh h a
  refine entries_perm_of_mem_iff (List.nodup_cons.2 ⟨fun hmem => ?_, s.nodup_entries⟩) fun k b => ?_
  · cases hfresh.symm.trans (mem_entries.1 hmem)
  · rw [List.mem_cons, mem_entries, Prod.mk.injEq]
    by_cases hk : k = (s.insert a).1
    · rw [hk, get?_insert_self h, hfresh, Option.some.injEq]
      simp [eq_comm]
    · rw [get?_insert_of_ne h a hk]
      simp [hk]

theorem entries_remove (s : Slots α) (key : Key α) :
    (s.remove key).2.entries.Perm (s.entries.filter fun e => e.1 ≠ key) := by
  refine entries_perm_of_mem_iff (s.nodup_entries.filter _) fun k b => ?_
  rw [mem_filter_entries, get?_remove]
  by_cases hk : k = key <;> simp [hk]

theorem entries_modify (h : s.get? key = some a) (f : α → α) :
    (s.modify key f).entries.Perm ((key, f a) :: s.entries.filter fun e => e.1 ≠ key) := by
  refine entries_perm_of_mem_iff (s.nodup_cons_filter key (f a)) fun k b => ?_
  rw [List.mem_cons, mem_filter_entries, get?_modify, Prod.mk.injEq]
  by_cases hk : k = key
  · rw [if_pos hk, hk, h, Option.map_some, Option.some.injEq]
    simp [eq_comm]
  · simp [hk]

/-- An entry that is taken out of the listing leaves the others. -/
theorem entries_perm_cons (h : s.get? key = some a) :
    s.entries.Perm ((key, a) :: s.entries.filter fun e => e.1 ≠ key) := by
  have hsame := entries_modify h fun _ => a
  rwa [modify_eq_self fun b hb => by rw [Option.some.inj (h.symm.trans hb)]] at hsame

/-! ## The number of entries -/

@[simp] theorem size_empty : (empty : Slots α).size = 0 := rfl

theorem size_insert (s : Slots α) (a : α) : (s.insert a).2.size = s.size + 1 := by
  unfold insert
  split <;> rfl

theorem size_modify (s : Slots α) (key : Key α) (f : α → α) : (s.modify key f).size = s.size := by
  unfold modify
  split <;> rfl

theorem size_mapEntries (s : Slots α) (f : α → α) : (s.mapEntries f).size = s.size := rfl

/-- An entry that goes was counted. -/
theorem size_remove (hs : s.WellFormed) (h : s.get? key = some a) :
    (s.remove key).2.size + 1 = s.size := by
  have hafter := (wellFormed_remove hs key).length_entries
  have hgone := (s.entries_remove key).length_eq
  have hbefore := (entries_perm_cons h).length_eq
  rw [List.length_cons, hs.length_entries] at hbefore
  rw [← hafter, hgone, ← hbefore]

theorem size_remove_le (s : Slots α) (key : Key α) : (s.remove key).2.size ≤ s.size := by
  unfold remove
  split
  · exact Nat.sub_le _ _
  · exact Nat.le_refl _

theorem size_removeAll_le (s : Slots α) (keys : List (Key α)) :
    (s.removeAll keys).2.size ≤ s.size := by
  induction keys generalizing s with
  | nil => exact Nat.le_refl _
  | cons key keys ih => exact Nat.le_trans (ih _) (s.size_remove_le key)

theorem size_removeWhere_le (s : Slots α) (doomed : α → Bool) :
    (s.removeWhere doomed).2.size ≤ s.size := by
  rw [removeWhere, drain_eq]
  exact size_removeAll_le _ _

end Slots

end NameRelay
