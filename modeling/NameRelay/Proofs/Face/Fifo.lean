-- SUMMARY: A ring answers like a list of bounded length, and every cell that it looks at is there.
import NameRelay.Proofs.Face.Ring

/-!
# Rings and lists

Whatever is asked of a ring, a list of at most as many items as the ring has cells gives the same
answers: `Request.onList` says how a list answers each request, and a ring that starts empty stays in
step with it.

The operations of a ring look up cells by their numbers. `Bare` is a ring without promises: each
remainder is taken and each cell looked up with the question whether there is such a thing, and a
`Fault` ends the run. The second half shows that a ring never comes to a fault and does just the same.
-/

namespace NameRelay

namespace Ring

variable {α σ : Type} {size : Nat} {r : Ring α size} {xs : List α}

-- ---------------------------------------------------------------------------
-- Requests and answers
-- ---------------------------------------------------------------------------

/-- One thing that is asked of a ring. A test that is shown the items may remember what it likes. -/
inductive Request (α σ : Type) where
  | push (a : α)
  | pop
  | sift (doomed : α → StateM σ Bool) (memory : σ)
  | list

/-- What a ring answers: that an item was taken, or the item itself if there is no room for it; the
    item that stood in front; how many items were removed, and what the test remembers; all items. -/
inductive Answer (α σ : Type) where
  | taken
  | refused (a : α)
  | popped (a : Option α)
  | sifted (count : Nat) (memory : σ)
  | listed (items : List α)

/-- The answer to a request, and the ring after it. -/
def perform (r : Ring α size) : Request α σ → Answer α σ × Ring α size
  | .push a =>
    match r.push? a with
    | some s => (.taken, s)
    | none => (.refused a, r)
  | .pop =>
    match r.pop? with
    | some (a, s) => (.popped (some a), s)
    | none => (.popped none, r)
  | .sift doomed memory =>
    let out := r.sift doomed memory
    (.sifted out.1.2 out.2, out.1.1)
  | .list => (.listed r.toList, r)

/-- How a list of at most `size` items answers, and what it is afterwards. -/
def Request.onList (size : Nat) (xs : List α) : Request α σ → Answer α σ × List α
  | .push a => if xs.length < size then (.taken, xs ++ [a]) else (.refused a, xs)
  | .pop => (.popped xs.head?, xs.tail)
  | .sift doomed memory =>
    let verdicts := judged doomed xs memory
    (.sifted (verdicts.1.countP (·.2)) verdicts.2, spared verdicts.1)
  | .list => (.listed xs, xs)

/-- The answers to requests that are made one after the other, and the ring after them. -/
def performAll (r : Ring α size) : List (Request α σ) → List (Answer α σ) × Ring α size
  | [] => ([], r)
  | request :: rest =>
    let (answer, r) := r.perform request
    let (answers, r) := performAll r rest
    (answer :: answers, r)

/-- The same for a list. -/
def Request.allOnList (size : Nat) (xs : List α) : List (Request α σ) → List (Answer α σ) × List α
  | [] => ([], xs)
  | request :: rest =>
    let (answer, xs) := request.onList size xs
    let (answers, xs) := allOnList size xs rest
    (answer :: answers, xs)

/-- A ring answers like the list of its items, and holds what that list becomes. -/
theorem Holds.perform (h : r.Holds xs) (request : Request α σ) :
    (r.perform request).1 = (request.onList size xs).1 ∧
      (r.perform request).2.Holds (request.onList size xs).2 := by
  cases request with
  | push a =>
    rcases Nat.lt_or_eq_of_le h.length_le with hroom | hfull
    · obtain ⟨s, hpush, hs⟩ := h.push?_of_lt hroom a
      simp only [Ring.perform, hpush, Request.onList, if_pos hroom]
      exact ⟨trivial, hs⟩
    · simp only [Ring.perform, h.push?_of_length_eq hfull, Request.onList, hfull, Nat.lt_irrefl,
        if_false]
      exact ⟨trivial, h⟩
  | pop =>
    cases xs with
    | nil =>
      simp only [Ring.perform, h.pop?_nil]
      exact ⟨rfl, h⟩
    | cons a rest =>
      obtain ⟨s, hpop, hs⟩ := h.pop?_cons
      simp only [Ring.perform, hpop]
      exact ⟨rfl, hs⟩
  | sift doomed memory =>
    obtain ⟨hleft, hcount, hmemory⟩ := h.sift doomed memory
    simp only [Ring.perform, Request.onList, hcount, hmemory]
    exact ⟨trivial, hleft⟩
  | list => exact ⟨congrArg Answer.listed h.toList_eq, h⟩

theorem Holds.performAll (h : r.Holds xs) (requests : List (Request α σ)) :
    (r.performAll requests).1 = (Request.allOnList size xs requests).1 ∧
      (r.performAll requests).2.Holds (Request.allOnList size xs requests).2 := by
  induction requests generalizing r xs with
  | nil => exact ⟨rfl, h⟩
  | cons request rest ih =>
    obtain ⟨hanswer, hnext⟩ := h.perform request
    obtain ⟨hanswers, hlast⟩ := ih hnext
    exact ⟨congrArg₂ List.cons hanswer hanswers, hlast⟩

-- ---------------------------------------------------------------------------
-- Rings without promises
-- ---------------------------------------------------------------------------

/-- What can go wrong where a cell is looked up. -/
inductive Fault where
  /-- A remainder was to be taken in a ring without cells. -/
  | noRemainder
  /-- There is no cell of this number. -/
  | noCell (index : Nat)
  deriving DecidableEq, Repr

/-- The number of the cell that stands `n` cells behind the first one, going round. -/
def round? (size n : Nat) : Except Fault Nat :=
  if size = 0 then .error .noRemainder else .ok (n % size)

/-- What is in the cell of a number. -/
def look (cells : Vector (Option α) size) (index : Nat) : Except Fault (Option α) :=
  if h : index < size then .ok cells[index] else .error (.noCell index)

/-- The cells with other contents in the one of a number. -/
def store (cells : Vector (Option α) size) (index : Nat) (contents : Option α) :
    Except Fault (Vector (Option α) size) :=
  if h : index < size then .ok (cells.set index contents) else .error (.noCell index)

/-- The cells and the numbers of a ring. -/
structure Bare (α : Type) (size : Nat) where
  cells : Vector (Option α) size
  head : Nat
  length : Nat

/-- A ring without what is known of it. -/
def bare (r : Ring α size) : Bare α size := ⟨r.cells, r.head, r.length⟩

namespace Bare

def push (b : Bare α size) (a : α) : Except Fault (Answer α σ × Bare α size) := do
  if b.length = size then return (.refused a, b)
  let target ← round? size (b.head + b.length)
  let cells ← store b.cells target (some a)
  return (.taken, ⟨cells, b.head, b.length + 1⟩)

def pop (b : Bare α size) : Except Fault (Answer α σ × Bare α size) := do
  if b.length = 0 then return (.popped none, b)
  let item ← look b.cells b.head
  let cells ← store b.cells b.head none
  let head ← round? size (b.head + 1)
  return (.popped item, ⟨cells, head, b.length - 1⟩)

/-- Shows the items at some places to a test, one after the other, and moves those that it does not
    doom to the places from `kept` on. -/
def compact (b : Bare α size) (doomed : α → StateM σ Bool) (kept : Nat)
    (cells : Vector (Option α) size) (memory : σ) :
    List Nat → Except Fault ((Vector (Option α) size × Nat) × σ)
  | [] => return ((cells, kept), memory)
  | i :: places => do
    let source ← round? size (b.head + i)
    match ← look cells source with
    | none => compact b doomed kept cells memory places
    | some a =>
      let cells ← store cells source none
      let verdict := doomed a memory
      if verdict.1 then compact b doomed kept cells verdict.2 places
      else
        let target ← round? size (b.head + kept)
        let cells ← store cells target (some a)
        compact b doomed (kept + 1) cells verdict.2 places

def sift (b : Bare α size) (doomed : α → StateM σ Bool) (memory : σ) :
    Except Fault (Answer α σ × Bare α size) := do
  let ((cells, kept), memory) ← compact b doomed 0 b.cells memory (List.range b.length)
  return (.sifted (b.length - kept) memory, ⟨cells, b.head, kept⟩)

def list (b : Bare α size) : Except Fault (Answer α σ × Bare α size) := do
  let found ← (List.range b.length).mapM fun i => do look b.cells (← round? size (b.head + i))
  return (.listed found.reduceOption, b)

def perform (b : Bare α size) : Request α σ → Except Fault (Answer α σ × Bare α size)
  | .push a => b.push a
  | .pop => b.pop
  | .sift doomed memory => b.sift doomed memory
  | .list => b.list

def performAll (b : Bare α size) : List (Request α σ) → Except Fault (List (Answer α σ) × Bare α size)
  | [] => return ([], b)
  | request :: rest => do
    let (answer, b) ← b.perform request
    let (answers, b) ← performAll b rest
    return (answer :: answers, b)

end Bare

-- ---------------------------------------------------------------------------
-- No fault
-- ---------------------------------------------------------------------------

/-- The head is a cell, if there are cells. -/
def HeadInside (r : Ring α size) : Prop := 0 < size → r.head < size

theorem round?_eq (h : 0 < size) (n : Nat) : round? size n = .ok (n % size) := if_neg h.ne'

theorem look_eq (cells : Vector (Option α) size) {index : Nat} (h : index < size) :
    look cells index = .ok cells[index] := dif_pos h

theorem store_eq (cells : Vector (Option α) size) {index : Nat} (h : index < size)
    (contents : Option α) : store cells index contents = .ok (cells.set index contents) := dif_pos h

/-- The cell of a place is found. -/
theorem look_place (h : 0 < size) (cells : Vector (Option α) size) (head i : Nat) :
    (do look cells (← round? size (head + i))) = .ok (inCell cells head i h) := by
  rw [round?_eq h]
  exact look_eq cells (Nat.mod_lt _ h)

/-- Asked of the ring without promises, the request gives the same answer and the same ring, and its
    head stays inside. -/
structure Sure (r : Ring α size) (request : Request α σ) : Prop where
  same : r.bare.perform request = .ok ((r.perform request).1, (r.perform request).2.bare)
  inside : (r.perform request).2.HeadInside

theorem sure_push (hinside : r.HeadInside) (a : α) : r.Sure (.push a : Request α σ) := by
  by_cases hroom : r.length < size
  · have hsize : 0 < size := Nat.zero_lt_of_lt hroom
    have hplace : (r.head + r.length) % size < size := Nat.mod_lt _ hsize
    have hpush : r.perform (.push a : Request α σ) = (.taken, ⟨r.cells.set _ (some a) hplace, r.head,
        r.length + 1, hroom⟩) := by
      rw [Ring.perform, push?, dif_pos hroom]
      rfl
    refine ⟨?_, hpush ▸ hinside⟩
    simp only [Bare.perform, Bare.push, bare, if_neg hroom.ne, round?_eq hsize, store_eq _ hplace,
      hpush, bind, Except.bind, pure, Except.pure]
  · have hfull : r.length = size := Nat.le_antisymm r.length_le (Nat.le_of_not_lt hroom)
    have hpush : r.perform (.push a : Request α σ) = (.refused a, r) := by
      rw [Ring.perform, push?, dif_neg hroom]
    refine ⟨?_, hpush ▸ hinside⟩
    rw [hpush]
    exact if_pos hfull

theorem sure_pop (h : r.Holds xs) (hinside : r.HeadInside) : r.Sure (.pop : Request α σ) := by
  cases xs with
  | nil =>
    have hpop : r.perform (.pop : Request α σ) = (.popped none, r) := by rw [Ring.perform, h.pop?_nil]
    refine ⟨?_, hpop ▸ hinside⟩
    rw [hpop]
    exact if_pos h.length
  | cons a rest =>
    have hlength : r.length ≠ 0 := by
      rw [h.length]
      exact Nat.succ_ne_zero _
    have hsize : 0 < size := Nat.lt_of_lt_of_le (Nat.pos_of_ne_zero hlength) r.length_le
    have hplace : r.head < size := hinside hsize
    have hmod : (r.head + 0) % size = r.head := Nat.mod_eq_of_lt hplace
    have hitem : r.cells[r.head] = some a := by
      have hcell := ((holds_iff hsize).1 h).2 0 (Nat.zero_lt_succ _)
      simpa only [inCell, Fin.getElem_fin, hmod, List.getElem?_cons_zero] using hcell
    have hpop : r.perform (.pop : Request α σ) = (.popped (some a), ⟨r.cells.set r.head none hplace,
        (r.head + 1) % size, r.length - 1, Nat.le_trans (Nat.sub_le _ _) r.length_le⟩) := by
      rw [Ring.perform, pop?, dif_pos (Nat.pos_of_ne_zero hlength)]
      simp only [cell, Fin.getElem_fin, hmod, hitem]
    refine ⟨?_, hpop ▸ fun _ => Nat.mod_lt _ hsize⟩
    simp only [Bare.perform, Bare.pop, bare, if_neg hlength, look_eq _ hplace, hitem,
      store_eq _ hplace, round?_eq hsize, hpop, bind, Except.bind, pure, Except.pure]

/-- The loop meets cells only. -/
theorem bare_compact (r : Ring α size) (h : 0 < size) (doomed : α → StateM σ Bool)
    {count i : Nat} (hend : i + count = r.length) (kept : Nat) (cells : Vector (Option α) size)
    (memory : σ) : r.bare.compact doomed kept cells memory (List.range' i count) =
      .ok (r.compact doomed h i kept cells memory) := by
  induction count generalizing i kept cells memory with
  | zero =>
    rw [Ring.compact, if_neg (by omega)]
    rfl
  | succ count ih =>
    have hsource : (r.head + i) % size < size := Nat.mod_lt _ h
    have htarget : (r.head + kept) % size < size := Nat.mod_lt _ h
    rw [Ring.compact, if_pos (by omega), List.range'_succ]
    have hnext := ih (i := i + 1) (by omega)
    simp only [Bare.compact, bare, round?_eq h, look_eq _ hsource, bind, Except.bind, cell,
      Fin.getElem_fin]
    cases cells[(r.head + i) % size] with
    | none => exact hnext kept cells memory
    | some a =>
      simp only [store_eq _ hsource]
      cases (doomed a memory).1 with
      | true => exact hnext kept _ _
      | false =>
        simp only [store_eq _ htarget]
        exact hnext (kept + 1) _ _

theorem sure_sift (hinside : r.HeadInside) (doomed : α → StateM σ Bool) (memory : σ) :
    r.Sure (.sift doomed memory) := by
  by_cases h : 0 < size
  · have hloop := r.bare_compact h doomed (Nat.zero_add r.length) 0 r.cells memory
    rw [← List.range_eq_range'] at hloop
    have hsift : r.sift doomed memory = (((⟨(r.compact doomed h 0 0 r.cells memory).1.1, r.head,
        (r.compact doomed h 0 0 r.cells memory).1.2, Nat.le_trans
          (r.compact_le doomed h (Nat.le_refl 0) (Nat.zero_le _)) r.length_le⟩ : Ring α size),
        r.length - (r.compact doomed h 0 0 r.cells memory).1.2),
        (r.compact doomed h 0 0 r.cells memory).2) := dif_pos h
    constructor
    · simp only [Bare.perform, Bare.sift, Ring.perform, hsift]
      change (r.bare.compact doomed 0 r.cells memory (List.range r.length) >>= _) = _
      rw [hloop]
      rfl
    · simp only [Ring.perform, hsift]
      exact hinside
  · have hnone : r.length = 0 := by
      have hle := r.length_le
      omega
    have hsift : r.perform (.sift doomed memory) = (.sifted 0 memory, r) := by
      rw [Ring.perform, Ring.sift, dif_neg h]
    refine ⟨?_, hsift ▸ hinside⟩
    rw [hsift]
    simp only [Bare.perform, Bare.sift, bare, hnone, List.range_zero, Bare.compact, bind,
      Except.bind, pure, Except.pure, Nat.sub_self]

/-- If every step succeeds, a list of steps does. -/
theorem mapM_eq_ok {ε β γ : Type} {f : β → Except ε γ} {g : β → γ} {l : List β}
    (h : ∀ b ∈ l, f b = .ok (g b)) : l.mapM f = .ok (l.map g) := by
  induction l with
  | nil => rfl
  | cons b l ih =>
    rw [List.mapM_cons, h b List.mem_cons_self, ih fun c hc => h c (List.mem_cons_of_mem b hc)]
    rfl

theorem sure_list (hinside : r.HeadInside) : r.Sure (.list : Request α σ) := by
  refine ⟨?_, hinside⟩
  have hfound : (List.range r.length).mapM (fun i => do look r.cells (← round? size (r.head + i))) =
      .ok ((List.range r.length).map r.item?) := by
    refine mapM_eq_ok fun i hi => ?_
    have hlength : i < r.length := List.mem_range.1 hi
    have hsize : 0 < size := Nat.lt_of_lt_of_le (Nat.zero_lt_of_lt hlength) r.length_le
    rw [look_place hsize, item?_of_lt hlength hsize]
  have hlisted : ((List.range r.length).map r.item?).reduceOption = r.toList := by
    change ((List.range r.length).map r.item?).filterMap id = r.toList
    rw [List.filterMap_map]
    rfl
  rw [Bare.perform, Bare.list]
  simp only [bare]
  rw [hfound]
  exact congrArg (fun items => Except.ok (Answer.listed items, r.bare)) hlisted

theorem sure_perform (h : r.Holds xs) (hinside : r.HeadInside) (request : Request α σ) :
    r.Sure request := by
  cases request with
  | push a => exact sure_push hinside a
  | pop => exact sure_pop h hinside
  | sift doomed memory => exact sure_sift hinside doomed memory
  | list => exact sure_list hinside

theorem bare_performAll (h : r.Holds xs) (hinside : r.HeadInside) (requests : List (Request α σ)) :
    r.bare.performAll requests =
      .ok ((r.performAll requests).1, (r.performAll requests).2.bare) := by
  induction requests generalizing r xs with
  | nil => rfl
  | cons request rest ih =>
    obtain ⟨hsame, hnext⟩ := sure_perform h hinside request
    have hrest := ih (h.perform request).2 hnext
    simp only [Bare.performAll, Ring.performAll, hsame, hrest, bind, Except.bind, pure, Except.pure]

/-- Whatever is asked of a ring that starts empty, it answers like a list of at most as many items as
    it has cells, and holds the items of that list. No cell that it looks at is missing, and no
    remainder is taken in a ring without cells. -/
theorem performAll_bounded (size : Nat) (requests : List (Request α σ)) :
    let ring := (empty : Ring α size).performAll requests
    let list := Request.allOnList size [] requests
    ring.1 = list.1 ∧ ring.2.Holds list.2 ∧ list.2.length ≤ size ∧
      ring.2.isEmpty = list.2.isEmpty ∧ ring.2.isFull = (list.2.length == size) ∧
      (empty : Ring α size).bare.performAll requests = .ok (ring.1, ring.2.bare) := by
  intro ring list
  have hempty : (empty : Ring α size).Holds [] := holds_empty
  obtain ⟨hanswers, hholds⟩ := hempty.performAll requests
  refine ⟨hanswers, hholds, hholds.length_le, ?_, ?_, bare_performAll hempty (fun h => h) requests⟩
  · rw [Bool.eq_iff_iff, hholds.isEmpty_iff, List.isEmpty_iff]
  · rw [isFull, hholds.length]

end Ring

end NameRelay
