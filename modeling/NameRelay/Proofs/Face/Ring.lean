-- SUMMARY: A ring is a first-in first-out queue of bounded length.
import Mathlib.Data.Nat.ModEq
import NameRelay.Face.Ring

/-!
# Rings as queues

`Ring.Holds` relates a ring to the list of its items. Each operation of a ring is an operation on
that list: putting in appends, taking out removes the first, removing filters, and only a list as
long as the ring has cells finds no room.
-/

namespace NameRelay

namespace Ring

variable {α : Type} {size : Nat} {r : Ring α size} {a : α} {xs : List α}

/-- The ring holds just these items, in order. -/
structure Holds (r : Ring α size) (xs : List α) : Prop where
  length : r.length = xs.length
  item : ∀ i, r.item? i = xs[i]?

/-! ## Cells -/

/-- Places less than a round apart have different cells. -/
theorem place_inj {head i j : Nat} (hi : i < size) (hj : j < size)
    (heq : (head + i) % size = (head + j) % size) : i = j := by
  have hmod : i ≡ j [MOD size] := Nat.ModEq.add_left_cancel' head heq
  exact hmod.eq_of_lt_of_lt hi hj

/-- What stands in the cell `i` places behind the head. -/
def inCell (cells : Vector (Option α) size) (head i : Nat) (h : 0 < size) : Option α :=
  cells[(⟨(head + i) % size, Nat.mod_lt _ h⟩ : Fin size)]

theorem inCell_set (cells : Vector (Option α) size) (head : Nat) {i j : Nat} (h : 0 < size)
    (hi : i < size) (hj : j < size) (x : Option α) :
    inCell (cells.set ((head + i) % size) x (Nat.mod_lt _ h)) head j h =
      if i = j then x else inCell cells head j h := by
  simp only [inCell, Fin.getElem_fin]
  rw [Vector.getElem_set]
  by_cases heq : i = j
  · rw [if_pos (by rw [heq]), if_pos heq]
  · rw [if_neg fun hsame => heq (place_inj hi hj hsame), if_neg heq]

theorem item?_of_lt {i : Nat} (hi : i < r.length) (h : 0 < size) :
    r.item? i = inCell r.cells r.head i h := by
  rw [item?, dif_pos hi]
  rfl

theorem item?_of_le {i : Nat} (hi : r.length ≤ i) : r.item? i = none := by
  rw [item?, dif_neg (Nat.not_lt_of_le hi)]

/-- A ring with cells holds the items that stand in them. -/
theorem holds_iff (h : 0 < size) : r.Holds xs ↔ r.length = xs.length ∧
    ∀ i < xs.length, inCell r.cells r.head i h = xs[i]? := by
  constructor
  · intro hholds
    refine ⟨hholds.length, fun i hi => ?_⟩
    rw [← item?_of_lt (hholds.length ▸ hi) h, hholds.item]
  · intro ⟨hlength, hcells⟩
    refine ⟨hlength, fun i => ?_⟩
    by_cases hi : i < xs.length
    · rw [item?_of_lt (hlength ▸ hi) h, hcells i hi]
    · rw [item?_of_le (hlength ▸ Nat.le_of_not_lt hi), List.getElem?_eq_none (Nat.le_of_not_lt hi)]

/-! ## Single items -/

theorem holds_empty : (empty : Ring α size).Holds [] where
  length := rfl
  item i := by rw [item?_of_le (Nat.zero_le i), List.getElem?_nil]

theorem filterMap_range_getElem? (xs : List α) :
    (List.range xs.length).filterMap (xs[·]?) = xs := by
  induction xs with
  | nil => rfl
  | cons x xs ih =>
    rw [List.length_cons, List.range_succ_eq_map, List.filterMap_cons, List.filterMap_map]
    exact congrArg (x :: ·) ih

namespace Holds

theorem toList_eq (h : r.Holds xs) : r.toList = xs := by
  have hitems : r.item? = (xs[·]?) := funext h.item
  rw [toList, h.length, hitems]
  exact filterMap_range_getElem? xs

theorem isEmpty_iff (h : r.Holds xs) : r.isEmpty = true ↔ xs = [] := by
  rw [isEmpty, h.length, beq_iff_eq, List.length_eq_zero_iff]

theorem length_le (h : r.Holds xs) : xs.length ≤ size := h.length ▸ r.length_le

/-- An item is put behind the others if there is a cell left. -/
theorem push?_of_lt (h : r.Holds xs) (hroom : xs.length < size) (a : α) :
    ∃ s, r.push? a = some s ∧ s.Holds (xs ++ [a]) := by
  have hsize : 0 < size := Nat.zero_lt_of_lt hroom
  have hcells := ((holds_iff hsize).1 h).2
  rw [push?, dif_pos (h.length.symm ▸ hroom)]
  refine ⟨_, rfl, (holds_iff hsize).2 ⟨by simp [h.length], fun i hi => ?_⟩⟩
  rw [List.length_append, List.length_singleton] at hi
  refine (inCell_set r.cells r.head hsize (h.length.symm ▸ hroom) (by omega) (some a)).trans ?_
  rw [h.length]
  by_cases hlast : xs.length = i
  · rw [if_pos hlast, ← hlast, List.getElem?_concat_length]
  · rw [if_neg hlast, hcells i (by omega), List.getElem?_append_left (by omega)]

theorem push?_of_length_eq (h : r.Holds xs) (hfull : xs.length = size) (a : α) :
    r.push? a = none := by
  rw [push?, dif_neg (by rw [h.length]; omega)]

/-- The first item is taken out. -/
theorem pop?_cons (h : r.Holds (a :: xs)) : ∃ s, r.pop? = some (a, s) ∧ s.Holds xs := by
  have hlength := h.length
  have hle := h.length_le
  rw [List.length_cons] at hlength hle
  have hsize : 0 < size := by omega
  have hcells := ((holds_iff hsize).1 h).2
  have hfirst : r.cells[(r.cell 0 hsize)] = some a := hcells 0 (Nat.zero_lt_succ _)
  rw [pop?, dif_pos (by omega)]
  dsimp only
  split
  · rename_i b hb
    cases hfirst.symm.trans hb
    refine ⟨_, rfl, (holds_iff hsize).2 ⟨by simp [hlength], fun i hi => ?_⟩⟩
    have hplace : ((r.head + 1) % size + i) % size = (r.head + (i + 1)) % size := by
      rw [Nat.mod_add_mod, Nat.add_assoc, Nat.add_comm 1 i]
    have hset := inCell_set r.cells r.head hsize hsize (j := i + 1) (by omega) none
    rw [if_neg (Nat.succ_ne_zero i).symm, hcells (i + 1) (by simpa using hi),
      List.getElem?_cons_succ] at hset
    rw [← hset]
    simp only [inCell, hplace]
    rfl
  · rename_i hb
    cases hfirst.symm.trans hb

theorem pop?_nil (h : r.Holds []) : r.pop? = none := by
  rw [pop?, dif_neg (by rw [h.length]; exact Nat.lt_irrefl 0)]

/-- Only an empty ring has no first item. -/
theorem pop?_eq_none_iff (h : r.Holds xs) : r.pop? = none ↔ xs = [] := by
  cases xs with
  | nil => exact iff_of_true h.pop?_nil rfl
  | cons a xs =>
    obtain ⟨s, hs, -⟩ := h.pop?_cons
    rw [hs]
    exact iff_of_false nofun nofun

/-- What is taken out was the first item. -/
theorem of_pop? (h : r.Holds xs) {s : Ring α size} (hs : r.pop? = some (a, s)) :
    ∃ rest, xs = a :: rest ∧ s.Holds rest := by
  cases xs with
  | nil => cases h.pop?_nil.symm.trans hs
  | cons b rest =>
    obtain ⟨t, ht, hholds⟩ := h.pop?_cons
    cases ht.symm.trans hs
    exact ⟨rest, rfl, hholds⟩

end Holds

/-! ## Many items -/

/-- As many items are put in as there is room for, the first ones. -/
theorem Holds.pushAll (h : r.Holds xs) (items : List α) :
    (r.pushAll items).1.Holds (xs ++ items.take (size - xs.length)) ∧
      (r.pushAll items).2 = items.length - (size - xs.length) := by
  induction items generalizing r xs with
  | nil => exact ⟨by rwa [List.take_nil, List.append_nil], (Nat.zero_sub _).symm⟩
  | cons a items ih =>
    rcases Nat.lt_or_eq_of_le h.length_le with hroom | hfull
    · obtain ⟨s, hpush, hs⟩ := h.push?_of_lt hroom a
      obtain ⟨hholds, hcount⟩ := ih hs
      have hmore : size - xs.length = size - (xs ++ [a]).length + 1 := by
        rw [List.length_append, List.length_singleton]
        omega
      rw [Ring.pushAll, hpush, hmore, List.take_succ_cons, List.length_cons,
        Nat.add_sub_add_right]
      rw [List.append_assoc, List.singleton_append] at hholds
      exact ⟨hholds, hcount⟩
    · obtain ⟨hholds, hcount⟩ := ih h
      have hnone : size - xs.length = 0 := by omega
      rw [hnone, List.take_zero] at hholds
      rw [hnone] at hcount
      rw [Ring.pushAll, h.push?_of_length_eq hfull a, hnone, List.take_zero]
      exact ⟨hholds, congrArg (· + 1) hcount⟩

/-! ## Removing items -/

section

variable {σ : Type} (doomed : α → StateM σ Bool)

/-- What a test says of items that it is shown one after the other. -/
def judged (items : List α) : StateM σ (List (α × Bool)) :=
  items.mapM fun a => return (a, ← doomed a)

/-- The items that were not doomed. -/
def spared (verdicts : List (α × Bool)) : List α := (verdicts.filter fun v => !v.2).map (·.1)

@[simp] theorem judged_nil (memory : σ) : judged doomed [] memory = ([], memory) := rfl

theorem judged_cons (memory : σ) (a : α) (items : List α) :
    judged doomed (a :: items) memory =
      ((a, (doomed a memory).1) :: (judged doomed items (doomed a memory).2).1,
        (judged doomed items (doomed a memory).2).2) := by
  unfold judged
  rw [List.mapM_cons]
  rfl

theorem length_judged (memory : σ) (items : List α) :
    (judged doomed items memory).1.length = items.length := by
  induction items generalizing memory with
  | nil => rfl
  | cons a items ih => rw [judged_cons, List.length_cons, List.length_cons, ih]

/-- The loop has moved `kept` to the front and still has `todo` before it. -/
theorem compact_spec (r : Ring α size) (h : 0 < size) {i : Nat} {cells : Vector (Option α) size}
    (kept todo : List α) (memory : σ) (hend : i + todo.length = r.length)
    (hbehind : kept.length ≤ i)
    (hkept : ∀ j < kept.length, inCell cells r.head j h = kept[j]?)
    (htodo : ∀ j < todo.length, inCell cells r.head (i + j) h = todo[j]?) :
    let out := r.compact doomed h i kept.length cells memory
    let left := kept ++ spared (judged doomed todo memory).1
    (out.1.2 = left.length ∧ ∀ j < left.length, inCell out.1.1 r.head j h = left[j]?) ∧
      out.2 = (judged doomed todo memory).2 := by
  induction todo generalizing i cells kept memory with
  | nil =>
    rw [compact, if_neg (by simp at hend; omega)]
    refine ⟨?_, rfl⟩
    simpa [spared] using hkept
  | cons a todo ih =>
    have hle := r.length_le
    rw [List.length_cons] at hend
    have hi : i < r.length := by omega
    have hfirst : cells[r.cell i h] = some a := htodo 0 (Nat.zero_lt_succ _)
    have hkept' (x : Option α) : ∀ j < kept.length,
        inCell (cells.set (r.cell i h) x (r.cell i h).isLt) r.head j h = kept[j]? := by
      intro j hj
      refine (inCell_set cells r.head h (by omega) (by omega) x).trans ?_
      rw [if_neg (by omega), hkept j hj]
    have htodo' (x : Option α) : ∀ j < todo.length,
        inCell (cells.set (r.cell i h) x (r.cell i h).isLt) r.head (i + 1 + j) h = todo[j]? := by
      intro j hj
      refine (inCell_set cells r.head h (by omega) (by omega) x).trans ?_
      have hnext := htodo (j + 1) (Nat.succ_lt_succ hj)
      rw [List.getElem?_cons_succ] at hnext
      rw [if_neg (by omega), ← hnext, Nat.add_assoc, Nat.add_comm 1 j]
    rw [compact, if_pos hi, judged_cons]
    simp only [hfirst]
    cases (doomed a memory).1 with
    | true =>
      rw [if_pos rfl]
      exact ih kept _ (by omega) (by omega) (hkept' none) (htodo' none)
    | false =>
      have hcount : kept.length + 1 = (kept ++ [a]).length := by simp
      have hspared : kept ++ spared ((a, false) :: (judged doomed todo (doomed a memory).2).1) =
          kept ++ [a] ++ spared (judged doomed todo (doomed a memory).2).1 := by simp [spared]
      rw [if_neg Bool.false_ne_true, hspared, hcount]
      refine ih (kept ++ [a]) _ (by omega) (by simp; omega) (fun j hj => ?_) (fun j hj => ?_)
      · rw [List.length_append, List.length_singleton] at hj
        refine (inCell_set _ r.head h (by omega) (by omega) (some a)).trans ?_
        by_cases hlast : kept.length = j
        · rw [if_pos hlast, ← hlast, List.getElem?_concat_length]
        · rw [if_neg hlast, hkept' none j (by omega), List.getElem?_append_left (by omega)]
      · refine (inCell_set _ r.head h (by omega) (by omega) (some a)).trans ?_
        rw [if_neg (by omega), htodo' none j hj]

/-- The test is shown every item in order; what it dooms is removed and counted, and the others stay
    in order. -/
theorem Holds.sift (h : r.Holds xs) (memory : σ) :
    (r.sift doomed memory).1.1.Holds (spared (judged doomed xs memory).1) ∧
      (r.sift doomed memory).1.2 = (judged doomed xs memory).1.countP (·.2) ∧
      (r.sift doomed memory).2 = (judged doomed xs memory).2 := by
  have hsum : (spared (judged doomed xs memory).1).length +
      (judged doomed xs memory).1.countP (·.2) = xs.length := by
    have hall := List.length_eq_countP_add_countP (·.2) (l := (judged doomed xs memory).1)
    rw [length_judged] at hall
    rw [spared, List.length_map, ← List.countP_eq_length_filter, hall, Nat.add_comm]
    congr 2
    funext v
    simp
  unfold Ring.sift
  split
  · rename_i hsize
    obtain ⟨hlength, hcells⟩ := (holds_iff hsize).1 h
    obtain ⟨⟨hcount, hleft⟩, hmemory⟩ := r.compact_spec doomed hsize (i := 0) [] xs memory
      (by omega) (Nat.le_refl 0) (fun j hj => absurd hj (Nat.not_lt_zero j))
      (fun j hj => by rw [Nat.zero_add, hcells j hj])
    refine ⟨(holds_iff hsize).2 ⟨hcount, hleft⟩, ?_, hmemory⟩
    dsimp only [List.length_nil] at hcount ⊢
    rw [hcount, hlength, List.nil_append]
    omega
  · have hle := h.length_le
    have hnil : xs = [] := List.length_eq_zero_iff.1 (by omega)
    subst hnil
    exact ⟨h, rfl, rfl⟩

end

/-- A test without a memory judges each item for itself. -/
theorem judged_pure (doomed : α → Bool) (items : List α) :
    judged (fun a => pure (doomed a)) items () = (items.map fun a => (a, doomed a), ()) := by
  induction items with
  | nil => rfl
  | cons a items ih =>
    rw [judged_cons]
    exact congrArg (fun out => ((a, doomed a) :: out.1, out.2)) ih

/-- The items that a test selects are removed, the others stay in order. -/
theorem Holds.removeWhere (h : r.Holds xs) (doomed : α → Bool) :
    (r.removeWhere doomed).1.Holds (xs.filter fun a => !doomed a) := by
  have hspared : spared (judged (fun a => pure (doomed a)) xs ()).1 =
      xs.filter fun a => !doomed a := by
    rw [judged_pure, spared, List.filter_map, List.map_map]
    exact List.map_id _
  rw [← hspared]
  exact (h.sift _ ()).1

end Ring

end NameRelay
