-- SUMMARY: An arena whose keys never resolve again once their entry is gone.

/-!
# Slots

Entries live in numbered slots, and a slot is used again when its entry is removed. A key holds the
number of a slot and the slot's generation, which each removal raises: an old key does not resolve
to the newcomer in its slot. The slot that was freed last is used first.

Entries are always listed in the order of their slots.
-/

namespace NameRelay

/-- The handle of an entry of type `α`. -/
structure Key (α : Type) where
  index : Nat
  generation : UInt32

instance {α : Type} : DecidableEq (Key α) := fun a b =>
  decidable_of_iff (a.index = b.index ∧ a.generation = b.generation) (by
    cases a; cases b; simp)

/-- One slot: how often it was freed, and the entry in it. -/
structure Slot (α : Type) where
  generation : UInt32
  entry : Option α

/-- Entries in slots, the free slots, the one to be used next at the front, and how many entries
    there are. -/
structure Slots (α : Type) where
  slots : List (Slot α)
  free : List Nat
  size : Nat

namespace Slots

variable {α : Type}

def empty : Slots α := ⟨[], [], 0⟩

/-- The entry under a key. -/
def get? (s : Slots α) (key : Key α) : Option α :=
  match s.slots[key.index]? with
  | some slot => if slot.generation = key.generation then slot.entry else none
  | none => none

def contains (s : Slots α) (key : Key α) : Bool := (s.get? key).isSome

/-- Stores an entry in the slot freed last, or in a new one. -/
def insert (s : Slots α) (a : α) : Key α × Slots α :=
  match s.free with
  | index :: free =>
    let generation := (s.slots[index]?.map Slot.generation).getD 0
    (⟨index, generation⟩, ⟨s.slots.set index ⟨generation, some a⟩, free, s.size + 1⟩)
  | [] => (⟨s.slots.length, 0⟩, ⟨s.slots ++ [⟨0, some a⟩], [], s.size + 1⟩)

/-- Changes the entry under a key; a key without an entry changes nothing. -/
def modify (s : Slots α) (key : Key α) (f : α → α) : Slots α :=
  match s.get? key with
  | some a => { s with slots := s.slots.set key.index ⟨key.generation, some (f a)⟩ }
  | none => s

/-- Removes the entry under a key and retires the key. -/
def remove (s : Slots α) (key : Key α) : Option α × Slots α :=
  match s.get? key with
  | some a =>
    (some a, ⟨s.slots.set key.index ⟨key.generation + 1, none⟩, key.index :: s.free, s.size - 1⟩)
  | none => (none, s)

/-- The entries of slots that stand from `index` on. -/
def entriesFrom (index : Nat) : List (Slot α) → List (Key α × α)
  | [] => []
  | slot :: rest =>
    match slot.entry with
    | some a => (⟨index, slot.generation⟩, a) :: entriesFrom (index + 1) rest
    | none => entriesFrom (index + 1) rest

/-- Keys and entries, in the order of the slots. -/
def entries (s : Slots α) : List (Key α × α) := entriesFrom 0 s.slots

def keys (s : Slots α) : List (Key α) := s.entries.map (·.1)

def values (s : Slots α) : List α := s.entries.map (·.2)

def isEmpty (s : Slots α) : Bool := s.size == 0

/-- The first entry that a test accepts. -/
def find? (s : Slots α) (p : α → Bool) : Option (Key α) :=
  (s.entries.find? fun e => p e.2).map (·.1)

/-- Changes every entry. -/
def mapEntries (s : Slots α) (f : α → α) : Slots α :=
  { s with slots := s.slots.map fun slot => { slot with entry := slot.entry.map f } }

/-- The sum of a weight over the entries. -/
def total (s : Slots α) (weight : α → Nat) : Nat :=
  s.slots.foldr (fun slot sum => (slot.entry.map weight).getD 0 + sum) 0

/-- Putting an element elsewhere in a list changes the sum of a weight by the difference. -/
theorem foldr_add_set {β : Type} (l : List β) (w : β → Nat) (i : Nat) (b c : β)
    (h : l[i]? = some b) :
    (l.set i c).foldr (fun x sum => w x + sum) 0 + w b =
      l.foldr (fun x sum => w x + sum) 0 + w c := by
  induction l generalizing i with
  | nil => simp at h
  | cons a rest ih =>
    cases i with
    | zero =>
      simp only [List.getElem?_cons_zero, Option.some.injEq] at h
      simp only [List.set_cons_zero, List.foldr_cons, h]
      omega
    | succ i =>
      have := ih i (by simpa using h)
      simp only [List.set_cons_succ, List.foldr_cons]
      omega

/-- Changing one entry changes the sum by that entry's difference. -/
theorem total_modify {s : Slots α} {key : Key α} {a : α} (f : α → α) (weight : α → Nat)
    (h : s.get? key = some a) :
    (s.modify key f).total weight + weight a = s.total weight + weight (f a) := by
  unfold modify total
  rw [h]
  unfold get? at h
  split at h
  · rename_i slot hslot
    split at h
    · have := foldr_add_set s.slots (fun slot => (slot.entry.map weight).getD 0) key.index slot
        ⟨key.generation, some (f a)⟩ hslot
      simpa [h] using this
    · simp at h
  · simp at h

/-- Removes the entries under some keys, one after the other, and returns what was there. -/
def removeAll (s : Slots α) : List (Key α) → List (Key α × α) × Slots α
  | [] => ([], s)
  | key :: keys =>
    let (removed, s) := s.remove key
    let (more, s) := removeAll s keys
    ((removed.map ((key, ·))).toList ++ more, s)

/-- Shows the entries of slots that stand from `index` on to a visitor, one after the other. The
    visitor may change each of them and says which ones are doomed, and remembers in `σ` what it
    likes. -/
def visitFrom {σ : Type} (visit : Key α → α → StateM σ (α × Bool)) (index : Nat) :
    List (Slot α) → StateM σ (List (Slot α) × List (Key α))
  | [] => pure ([], [])
  | slot :: rest =>
    match slot.entry with
    | none => do
      let (rest, doomed) ← visitFrom visit (index + 1) rest
      return (slot :: rest, doomed)
    | some a => do
      let key : Key α := ⟨index, slot.generation⟩
      let (a, isDoomed) ← visit key a
      let (rest, doomed) ← visitFrom visit (index + 1) rest
      return (⟨slot.generation, some a⟩ :: rest, if isDoomed then key :: doomed else doomed)

/-- Shows every entry to a visitor, in the order of the slots, then removes and returns those that
    it dooms, as it left them. -/
def sift {σ : Type} (s : Slots α) (visit : Key α → α → StateM σ (α × Bool)) (memory : σ) :
    List (Key α × α) × Slots α :=
  let (slots, doomed) := (visitFrom visit 0 s.slots memory).1
  { s with slots }.removeAll doomed

/-- Changes every entry, then removes and returns those that a test on the changed entries
    selects. -/
def drain (s : Slots α) (change : α → α) (doomed : α → Bool) : List (Key α × α) × Slots α :=
  s.sift (fun _ a => pure (change a, doomed (change a))) ()

/-- Removes and returns the entries that a test selects. -/
def removeWhere (s : Slots α) (doomed : α → Bool) : List (Key α × α) × Slots α :=
  s.drain id doomed

end Slots

end NameRelay
