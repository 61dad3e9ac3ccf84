-- SUMMARY: A first-in first-out buffer of fixed size that refuses items when it is full.

/-!
# Rings

A ring has a fixed number of cells. Its items stand in `length` cells from `head` on, and go on at
the first cell behind the last. Nothing is ever overwritten: a full ring hands an item back.
-/

namespace NameRelay

/-- Items in a ring of `size` cells. -/
structure Ring (α : Type) (size : Nat) where
  cells : Vector (Option α) size
  head : Nat
  length : Nat
  /-- There are no more items than cells. -/
  length_le : length ≤ size

namespace Ring

variable {α : Type} {size : Nat}

def empty : Ring α size := ⟨Vector.replicate size none, 0, 0, Nat.zero_le _⟩

def isEmpty (r : Ring α size) : Bool := r.length == 0

def isFull (r : Ring α size) : Bool := r.length == size

/-- The cell `i` places behind the head, for a ring that has cells. -/
def cell (r : Ring α size) (i : Nat) (h : 0 < size) : Fin size :=
  ⟨(r.head + i) % size, Nat.mod_lt _ h⟩

/-- The item `i` places behind the head. -/
def item? (r : Ring α size) (i : Nat) : Option α :=
  if h : i < r.length then r.cells[r.cell i (by have := r.length_le; omega)] else none

/-- The items, the one to come out next in front. -/
def toList (r : Ring α size) : List α := (List.range r.length).filterMap r.item?

/-- Puts an item behind the others; none if the ring is full. -/
def push? (r : Ring α size) (a : α) : Option (Ring α size) :=
  if h : r.length < size then
    some {
      cells := r.cells.set (r.cell r.length (by omega)) (some a) (r.cell r.length (by omega)).isLt
      head := r.head
      length := r.length + 1
      length_le := h }
  else
    none

/-- Puts items in one after the other, as long as there is room; the number is how many are
    refused. -/
def pushAll (r : Ring α size) : List α → Ring α size × Nat
  | [] => (r, 0)
  | a :: rest =>
    match r.push? a with
    | some r => pushAll r rest
    | none =>
      let (r, refused) := pushAll r rest
      (r, refused + 1)

/-- Takes the item in front. -/
def pop? (r : Ring α size) : Option (α × Ring α size) :=
  if h : 0 < r.length then
    have hs : 0 < size := Nat.lt_of_lt_of_le h r.length_le
    match r.cells[r.cell 0 hs] with
    | some a =>
      some (a, {
        cells := r.cells.set (r.cell 0 hs) none (r.cell 0 hs).isLt
        head := (r.head + 1) % size
        length := r.length - 1
        length_le := Nat.le_trans (Nat.sub_le _ _) r.length_le })
    | none => none
  else
    none

/-- Taking an item leaves one less. -/
theorem length_of_pop? {r s : Ring α size} {a : α} (h : r.pop? = some (a, s)) :
    s.length + 1 = r.length := by
  unfold pop? at h
  split at h
  · dsimp only at h
    split at h
    · simp only [Option.some.injEq, Prod.mk.injEq] at h
      have : s.length = r.length - 1 := by rw [← h.2]
      omega
    · simp at h
  · simp at h

/-- Shows the items from place `i` on to a test, one after the other, and moves those that it does
    not doom to the places from `kept` on. The test remembers in `σ` what it likes. -/
def compact {σ : Type} (r : Ring α size) (doomed : α → StateM σ Bool) (h : 0 < size) (i kept : Nat)
    (cells : Vector (Option α) size) (memory : σ) : (Vector (Option α) size × Nat) × σ :=
  if i < r.length then
    let source := r.cell i h
    match cells[source] with
    | none => compact r doomed h (i + 1) kept cells memory
    | some a =>
      let cells := cells.set source none source.isLt
      let verdict := doomed a memory
      if verdict.1 then compact r doomed h (i + 1) kept cells verdict.2
      else
        let target := r.cell kept h
        compact r doomed h (i + 1) (kept + 1) (cells.set target (some a) target.isLt) verdict.2
  else
    ((cells, kept), memory)
termination_by r.length - i

theorem compact_le {σ : Type} (r : Ring α size) (doomed : α → StateM σ Bool) (h : 0 < size)
    {i kept : Nat} {cells : Vector (Option α) size} {memory : σ} (hk : kept ≤ i)
    (hi : i ≤ r.length) : (r.compact doomed h i kept cells memory).1.2 ≤ r.length := by
  fun_induction compact r doomed h i kept cells memory with
  | case1 => rename_i ih; exact ih (by omega) (by omega)
  | case2 => rename_i ih; exact ih (by omega) (by omega)
  | case3 => rename_i ih; exact ih (by omega) (by omega)
  | case4 => exact Nat.le_trans hk hi

/-- Shows every item to a test, the one in front first, removes those that it dooms and keeps the
    others in order; the number is how many were removed. -/
def sift {σ : Type} (r : Ring α size) (doomed : α → StateM σ Bool) :
    StateM σ (Ring α size × Nat) := fun memory =>
  if h : 0 < size then
    let compacted := r.compact doomed h 0 0 r.cells memory
    have hle : compacted.1.2 ≤ r.length := r.compact_le doomed h (Nat.le_refl 0) (Nat.zero_le _)
    (({ cells := compacted.1.1
        head := r.head
        length := compacted.1.2
        length_le := Nat.le_trans hle r.length_le }, r.length - compacted.1.2), compacted.2)
  else
    ((r, 0), memory)

/-- Removes the items that a test selects and keeps the others in order; the number is how many
    were removed. -/
def removeWhere (r : Ring α size) (doomed : α → Bool) : Ring α size × Nat :=
  (r.sift (fun a => pure (doomed a)) ()).1

end Ring

end NameRelay
