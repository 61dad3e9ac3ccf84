-- SUMMARY: To its users an arena is a finite map whose keys are issued once.
import NameRelay.Proofs.Table.Generations
import NameRelay.Proofs.Table.Listing

/-!
# Bindings

All that users see of an arena are the keys they are given and the answers they get. They might as
well use a finite map with a list of the keys that were ever issued. `Bindings` is that map, with one
rule for each operation, and an arena that starts empty gives answers that follow these rules. A slot
is used again, but under another key each time: this holds as long as no generation has gone round,
and a generation is raised at most once by an operation.
-/

namespace NameRelay

namespace Slots

variable {α : Type} {s t : Slots α}

-- ---------------------------------------------------------------------------
-- Visitors
-- ---------------------------------------------------------------------------

section

variable {σ : Type}

/-- What a visitor makes of listed entries: each as it left it, and whether it is doomed. -/
def visited (visit : Key α → α → StateM σ (α × Bool)) (l : List (Key α × α)) :
    StateM σ (List ((Key α × α) × Bool)) :=
  l.mapM fun e => do
    let (a, isDoomed) ← visit e.1 e.2
    return ((e.1, a), isDoomed)

variable (visit : Key α → α → StateM σ (α × Bool))

theorem visited_cons (memory : σ) (e : Key α × α) (l : List (Key α × α)) :
    visited visit (e :: l) memory =
      (((e.1, (visit e.1 e.2 memory).1.1), (visit e.1 e.2 memory).1.2) ::
          (visited visit l (visit e.1 e.2 memory).2).1,
        (visited visit l (visit e.1 e.2 memory).2).2) := by
  unfold visited
  rw [List.mapM_cons]
  rfl

/-- A visitor sees the keys of the listing. -/
theorem map_visited (memory : σ) (l : List (Key α × α)) :
    (visited visit l memory).1.map (·.1.1) = l.map (·.1) := by
  induction l generalizing memory with
  | nil => rfl
  | cons e l ih =>
    rw [visited_cons]
    exact congrArg (e.1 :: ·) (ih _)

/-- The generation of a slot, and whether there is an entry in it. -/
def shape (slot : Slot α) : UInt32 × Bool := (slot.generation, slot.entry.isSome)

/-- What is left of slots after a visit: the entries as the visitor left them, in the slots in which
    they were. -/
structure Left (start : Nat) (slots : List (Slot α)) (memory : σ)
    (out : (List (Slot α) × List (Key α)) × σ) : Prop where
  entries : entriesFrom start out.1.1 =
    (visited visit (entriesFrom start slots) memory).1.map (·.1)
  doomed : out.1.2 =
    ((visited visit (entriesFrom start slots) memory).1.filter (·.2)).map (·.1.1)
  memory : out.2 = (visited visit (entriesFrom start slots) memory).2
  shapes : out.1.1.map shape = slots.map shape

theorem left_visitFrom (slots : List (Slot α)) (start : Nat) (memory : σ) :
    Left visit start slots memory (visitFrom visit start slots memory) := by
  induction slots generalizing start memory with
  | nil => exact ⟨rfl, rfl, rfl, rfl⟩
  | cons slot rest ih =>
    obtain ⟨generation, entry⟩ := slot
    cases entry with
    | none =>
      have hrest := ih (start + 1) memory
      exact ⟨hrest.entries, hrest.doomed, hrest.memory, congrArg (_ :: ·) hrest.shapes⟩
    | some a =>
      have hrest := ih (start + 1) (visit ⟨start, generation⟩ a memory).2
      have hseen := visited_cons visit memory (⟨start, generation⟩, a) (entriesFrom (start + 1) rest)
      have hentries : entriesFrom start (⟨generation, some a⟩ :: rest) =
          (⟨start, generation⟩, a) :: entriesFrom (start + 1) rest := rfl
      refine ⟨?_, ?_, ?_, congrArg (_ :: ·) hrest.shapes⟩
      · rw [hentries, hseen]
        exact congrArg (_ :: ·) hrest.entries
      · rw [hentries, hseen]
        have hdoomed := hrest.doomed
        change (if (visit ⟨start, generation⟩ a memory).1.2 then _ else _) = _
        cases hd : (visit ⟨start, generation⟩ a memory).1.2 with
        | false => simpa [List.filter_cons, hd] using hdoomed
        | true => simpa [List.filter_cons, hd] using hdoomed
      · rw [hentries, hseen]
        exact hrest.memory

end

/-- Slots of the same shapes are as well formed, if the same ones are free. -/
theorem WellFormed.of_shapes (h : s.WellFormed) (hfree : t.free = s.free) (hsize : t.size = s.size)
    (hshapes : t.slots.map shape = s.slots.map shape) : t.WellFormed := by
  have htaken (slots : List (Slot α)) : taken slots = (slots.map shape).countP (·.2) := by
    rw [taken, List.countP_map]
    rfl
  refine ⟨hfree ▸ h.free_nodup, fun i hi => ?_, ?_⟩
  · obtain ⟨generation, hvacant⟩ := h.vacant i (hfree ▸ hi)
    have hshape := congrArg (·[i]?) hshapes
    simp only [List.getElem?_map, hvacant, Option.map_some, Option.map_eq_some_iff] at hshape
    obtain ⟨⟨g, entry⟩, hslot, heq⟩ := hshape
    cases entry with
    | none => exact ⟨g, hslot⟩
    | some a => cases congrArg Prod.snd heq
  · rw [hsize, h.counted, htaken, htaken, hshapes]

theorem slot?_of_shapes (hshapes : t.slots.map shape = s.slots.map shape) (index : Nat) :
    t.slot? index = s.slot? index := by
  have hshape := congrArg (·[index]?) hshapes
  rwa [List.getElem?_map, List.getElem?_map] at hshape

/-- Keys that are removed one after the other give back what each of them resolved to. -/
theorem removeAll_fst (s : Slots α) {keys : List (Key α)} (h : keys.Nodup) :
    (s.removeAll keys).1 = keys.filterMap fun key => (s.get? key).map ((key, ·)) := by
  induction keys generalizing s with
  | nil => rfl
  | cons key keys ih =>
    obtain ⟨hnot, hrest⟩ := List.nodup_cons.1 h
    have hsame : ∀ k ∈ keys, ((s.remove key).2.get? k).map ((k, ·)) = (s.get? k).map ((k, ·)) := by
      intro k hk
      have hne : k ≠ key := fun heq => hnot (heq ▸ hk)
      rw [get?_remove, if_neg hne]
    simp only [removeAll, remove_fst, ih _ hrest, List.filterMap_cons]
    rw [List.filterMap_congr hsame]
    cases s.get? key <;> rfl

section

variable {σ : Type} (visit : Key α → α → StateM σ (α × Bool)) (memory : σ)

/-- The arena after a visit, before anything is removed. -/
def shown (s : Slots α) : Slots α := { s with slots := (visitFrom visit 0 s.slots memory).1.1 }

theorem entries_shown (s : Slots α) :
    (s.shown visit memory).entries = (visited visit s.entries memory).1.map (·.1) :=
  (left_visitFrom visit s.slots 0 memory).entries

theorem sift_eq (s : Slots α) : s.sift visit memory =
    (s.shown visit memory).removeAll
      (((visited visit s.entries memory).1.filter (·.2)).map (·.1.1)) :=
  congrArg (s.shown visit memory).removeAll (left_visitFrom visit s.slots 0 memory).doomed

theorem shapes_shown (s : Slots α) :
    (s.shown visit memory).slots.map shape = s.slots.map shape :=
  (left_visitFrom visit s.slots 0 memory).shapes

theorem wellFormed_sift (h : s.WellFormed) : (s.sift visit memory).2.WellFormed := by
  rw [sift_eq]
  exact wellFormed_removeAll
    (h.of_shapes (t := s.shown visit memory) rfl rfl (shapes_shown visit memory s)) _

theorem shrinks_sift (s : Slots α) : Shrinks s (s.sift visit memory).2 := by
  rw [sift_eq]
  exact (Shrinks.of_slot? (slot?_of_shapes (shapes_shown visit memory s))).trans (.removeAll _ _)

/-- No entry is shown twice. -/
theorem nodup_visited (s : Slots α) : ((visited visit s.entries memory).1.map (·.1.1)).Nodup := by
  rw [map_visited]
  exact s.nodup_keys

/-- What is removed is what the visitor doomed, as it left it, in the order of the slots. -/
theorem sift_fst (s : Slots α) :
    (s.sift visit memory).1 = ((visited visit s.entries memory).1.filter (·.2)).map (·.1) := by
  rw [sift_eq, removeAll_fst _ ((nodup_visited visit memory s).sublist (List.filter_sublist.map _)),
    List.filterMap_map, ← List.filterMap_eq_map]
  refine List.filterMap_congr fun d hd => ?_
  have hshown : (d.1.1, d.1.2) ∈ (s.shown visit memory).entries := by
    rw [entries_shown]
    exact List.mem_map_of_mem (List.mem_filter.1 hd).1
  simp only [Function.comp_apply, mem_entries.1 hshown, Option.map_some]

/-- What is left is what the visitor did not doom, as it left it. -/
theorem get?_sift {key : Key α} {a : α} : (s.sift visit memory).2.get? key = some a ↔
    ((key, a), false) ∈ (visited visit s.entries memory).1 := by
  have hshown : (s.shown visit memory).get? key = some a ↔
      ∃ doomed, ((key, a), doomed) ∈ (visited visit s.entries memory).1 := by
    rw [← mem_entries, entries_shown, List.mem_map]
    constructor
    · rintro ⟨⟨e, doomed⟩, hmem, rfl⟩
      exact ⟨doomed, hmem⟩
    · rintro ⟨doomed, hmem⟩
      exact ⟨_, hmem, rfl⟩
  have hdoomed : key ∈ (((visited visit s.entries memory).1.filter (·.2)).map (·.1.1)) ↔
      ∃ b, ((key, b), true) ∈ (visited visit s.entries memory).1 := by
    simp only [List.mem_map, List.mem_filter, Prod.exists]
    constructor
    · rintro ⟨k, b, doomed, ⟨hmem, rfl⟩, rfl⟩
      exact ⟨b, hmem⟩
    · rintro ⟨b, hmem⟩
      exact ⟨key, b, true, ⟨hmem, rfl⟩, rfl⟩
  rw [sift_eq, get?_removeAll]
  split
  · rename_i hmem
    obtain ⟨b, hb⟩ := hdoomed.1 hmem
    refine iff_of_false nofun fun hkept => ?_
    cases List.inj_on_of_nodup_map (nodup_visited visit memory s) hb hkept rfl
  · rename_i hnot
    rw [hshown]
    constructor
    · rintro ⟨doomed, hmem⟩
      cases doomed with
      | false => exact hmem
      | true => exact absurd (hdoomed.2 ⟨a, hmem⟩) hnot
    · exact fun hmem => ⟨false, hmem⟩

end

-- ---------------------------------------------------------------------------
-- Operations and answers
-- ---------------------------------------------------------------------------

/-- One thing that is asked of an arena. A visitor may remember what it likes. -/
inductive Operation (α : Type) : Type 1 where
  | insert (a : α)
  | get (key : Key α)
  | modify (key : Key α) (f : α → α)
  | remove (key : Key α)
  | sift {σ : Type} (visit : Key α → α → StateM σ (α × Bool)) (memory : σ)

/-- What an arena answers: the key of a new entry, what a key resolves to, or what was removed. -/
inductive Answer (α : Type) where
  | issued (key : Key α)
  | found (entry : Option α)
  | removed (entries : List (Key α × α))

/-- The answer to an operation, and the arena after it. A change answers with what there was. -/
def perform (s : Slots α) : Operation α → Answer α × Slots α
  | .insert a => (.issued (s.insert a).1, (s.insert a).2)
  | .get key => (.found (s.get? key), s)
  | .modify key f => (.found (s.get? key), s.modify key f)
  | .remove key => (.found (s.remove key).1, (s.remove key).2)
  | .sift visit memory => (.removed (s.sift visit memory).1, (s.sift visit memory).2)

/-- What is asked and answered in turn, and the arena after it. -/
def performAll (s : Slots α) : List (Operation α) → List (Operation α × Answer α) × Slots α
  | [] => ([], s)
  | op :: ops =>
    let (answer, s) := s.perform op
    let (answers, s) := performAll s ops
    ((op, answer) :: answers, s)

theorem performAll_append (s : Slots α) (before after : List (Operation α)) :
    s.performAll (before ++ after) =
      ((s.performAll before).1 ++ ((s.performAll before).2.performAll after).1,
        ((s.performAll before).2.performAll after).2) := by
  induction before generalizing s with
  | nil => rfl
  | cons op before ih =>
    simp only [List.cons_append, performAll, ih]

-- ---------------------------------------------------------------------------
-- The map
-- ---------------------------------------------------------------------------

/-- A finite map, as users of an arena see it: the keys that were issued so far, and what each key
    holds. -/
structure Bindings (α : Type) where
  issued : List (Key α)
  held : Key α → Option α

namespace Bindings

/-- No key was issued yet. -/
def empty : Bindings α := ⟨[], fun _ => none⟩

/-- The list holds what the map holds, in the order of the slots. -/
structure Lists (b : Bindings α) (l : List (Key α × α)) : Prop where
  ordered : l.Pairwise fun d e => d.1.index < e.1.index
  mem_iff : ∀ key a, (key, a) ∈ l ↔ b.held key = some a

/-- The rule for each operation: what may be answered, and what the map holds afterwards. -/
inductive Step (b : Bindings α) : Operation α → Answer α → Bindings α → Prop where
  /-- The key is new. -/
  | insert (a : α) {key : Key α} (hnew : key ∉ b.issued) :
      Step b (.insert a) (.issued key)
        ⟨key :: b.issued, fun k => if k = key then some a else b.held k⟩
  | get (key : Key α) : Step b (.get key) (.found (b.held key)) b
  | modify (key : Key α) (f : α → α) : Step b (.modify key f) (.found (b.held key))
      { b with held := fun k => if k = key then (b.held k).map f else b.held k }
  | remove (key : Key α) : Step b (.remove key) (.found (b.held key))
      { b with held := fun k => if k = key then none else b.held k }
  /-- The entries are shown in the order of the slots. Those that are doomed go, the others stay,
      and all of them are as the visitor left them. -/
  | sift {σ : Type} (visit : Key α → α → StateM σ (α × Bool)) (memory : σ)
      {l : List (Key α × α)} {held : Key α → Option α} (hl : b.Lists l)
      (hheld : ∀ key a, held key = some a ↔ ((key, a), false) ∈ (visited visit l memory).1) :
      Step b (.sift visit memory)
        (.removed (((visited visit l memory).1.filter (·.2)).map (·.1))) { b with held }

/-- Operations and answers follow the rules one after the other. -/
inductive Run : Bindings α → List (Operation α × Answer α) → Bindings α → Prop where
  | nil (b : Bindings α) : Run b [] b
  | cons {b c d : Bindings α} {op : Operation α} {answer : Answer α}
      {rest : List (Operation α × Answer α)} (h : b.Step op answer c) (hrest : Run c rest d) :
      Run b ((op, answer) :: rest) d

variable {b c : Bindings α} {key : Key α}

theorem Step.of_eq {op : Operation α} {answer answer' : Answer α} (h : b.Step op answer' c)
    (heq : answer = answer') : b.Step op answer c := heq ▸ h

/-- An issued key that holds nothing never holds anything again. -/
theorem Step.retired {op : Operation α} {answer : Answer α} (h : b.Step op answer c)
    (hissued : key ∈ b.issued) (hnone : b.held key = none) :
    key ∈ c.issued ∧ c.held key = none := by
  cases h with
  | @insert a k hnew =>
    have hne : key ≠ k := fun heq => hnew (heq ▸ hissued)
    exact ⟨List.mem_cons_of_mem _ hissued, by simp [hne, hnone]⟩
  | get => exact ⟨hissued, hnone⟩
  | modify k f => exact ⟨hissued, by simp [hnone]⟩
  | remove k => exact ⟨hissued, by simp [hnone]⟩
  | @sift σ visit memory l held hl hheld =>
    refine ⟨hissued, Option.eq_none_iff_forall_not_mem.2 fun a ha => ?_⟩
    -- the visitor is shown the keys of the listing only
    have hmem : key ∈ l.map (·.1) := by
      rw [← map_visited visit memory l]
      exact List.mem_map_of_mem ((hheld key a).1 ha)
    obtain ⟨⟨k, d⟩, hd, rfl⟩ := List.mem_map.1 hmem
    cases hnone.symm.trans ((hl.mem_iff k d).1 hd)

theorem Run.retired {trace : List (Operation α × Answer α)} (h : Run b trace c)
    (hissued : key ∈ b.issued) (hnone : b.held key = none) : c.held key = none := by
  induction h with
  | nil => exact hnone
  | cons h _ ih =>
    obtain ⟨hstill, hgone⟩ := h.retired hissued hnone
    exact ih hstill hgone

/-- The keys that were issued are those that were answered. -/
theorem Run.mem_issued {trace : List (Operation α × Answer α)} (h : Run b trace c)
    {op : Operation α} (hmem : (op, .issued key) ∈ trace) : key ∈ c.issued := by
  have hkept {b c : Bindings α} {op : Operation α} {answer : Answer α} (h : b.Step op answer c) :
      b.issued ⊆ c.issued := by
    cases h with
    | insert => exact List.subset_cons_self _ _
    | get | modify | remove | sift => exact List.Subset.refl _
  have hrun {b c : Bindings α} {trace : List (Operation α × Answer α)} (h : Run b trace c) :
      b.issued ⊆ c.issued := by
    induction h with
    | nil => exact List.Subset.refl _
    | cons h _ ih => exact List.Subset.trans (hkept h) ih
  induction h with
  | nil => cases hmem
  | cons h hrest ih =>
    rcases List.mem_cons.1 hmem with heq | hlater
    · cases heq
      cases h with
      | insert => exact hrun hrest List.mem_cons_self
    · exact ih hlater

end Bindings

-- ---------------------------------------------------------------------------
-- The arena follows the rules
-- ---------------------------------------------------------------------------

/-- After `n` operations the arena holds what the map does, and each issued key has either the
    generation of its slot, and an entry in it, or an earlier one. -/
structure Follows (s : Slots α) (b : Bindings α) (n : Nat) : Prop where
  wellFormed : s.WellFormed
  held : ∀ key, s.get? key = b.held key
  fits : ∀ index generation taken, s.slot? index = some (generation, taken) →
    index < n ∧ generation.toNat ≤ n
  live : ∀ key, s.contains key = true → key ∈ b.issued
  issued : ∀ key ∈ b.issued, ∃ generation taken, s.slot? key.index = some (generation, taken) ∧
    (key.generation < generation ∨ key.generation = generation ∧ taken = true)

/-- What users see of the arena is the map: keys resolve to what they hold, the entries are listed in
    the order of the slots and counted, and the number of a slot fits in a word. -/
structure Represents (s : Slots α) (b : Bindings α) : Prop where
  resolves : ∀ key, s.get? key = b.held key
  lists : b.Lists s.entries
  counts : s.size = s.entries.length
  live : ∀ key a, b.held key = some a → key ∈ b.issued
  words : ∀ key ∈ b.issued, key.index < 0x100000000

namespace Follows

variable {b c : Bindings α} {n : Nat}

theorem empty : (empty : Slots α).Follows .empty 0 where
  wellFormed := wellFormed_empty
  held := get?_empty
  fits _ _ _ h := by cases h
  live key h := by
    obtain ⟨a, ha⟩ := contains_iff.1 h
    rw [get?_empty] at ha
    cases ha
  issued _ h := by cases h

theorem lists (h : s.Follows b n) : b.Lists s.entries :=
  ⟨s.pairwise_entries, fun key a => by rw [mem_entries, h.held]⟩

theorem represents (h : s.Follows b n) (hn : n < 0x100000000) : s.Represents b where
  resolves := h.held
  lists := h.lists
  counts := h.wellFormed.length_entries.symm
  live key a ha := h.live key (contains_iff.2 ⟨a, (h.held key).trans ha⟩)
  words key hkey := by
    obtain ⟨generation, taken, hslot, -⟩ := h.issued key hkey
    exact Nat.lt_trans (h.fits _ _ _ hslot).1 hn

/-- A generation below the largest word is followed by a later one. -/
theorem toNat_next {generation : UInt32} (hbound : generation.toNat ≤ n) (hn : n + 1 < 0x100000000) :
    (generation + 1).toNat = generation.toNat + 1 := by
  rw [UInt32.toNat_add]
  apply Nat.mod_eq_of_lt
  exact Nat.lt_of_le_of_lt (Nat.succ_le_succ hbound) hn

/-- An operation after which slots have lost entries at most issues no key and retires those of what
    went. -/
theorem shrink (h : s.Follows b n) (hn : n + 1 < 0x100000000) (ht : t.WellFormed) (hst : Shrinks s t)
    (hissued : c.issued = b.issued) (hheld : ∀ key, t.get? key = c.held key) :
    t.Follows c (n + 1) where
  wellFormed := ht
  held := hheld
  fits index generation taken hslot := by
    rcases hst index with hsame | ⟨old, hhere, hgone⟩
    · obtain ⟨hindex, hbound⟩ := h.fits _ _ _ (hsame.symm.trans hslot)
      exact ⟨Nat.lt_succ_of_lt hindex, Nat.le_succ_of_le hbound⟩
    · obtain ⟨hindex, hbound⟩ := h.fits _ _ _ hhere
      cases hgone.symm.trans hslot
      exact ⟨Nat.lt_succ_of_lt hindex, toNat_next hbound hn ▸ Nat.succ_le_succ hbound⟩
  live key hkey := by
    rw [hissued]
    have hslot := contains_iff_slot?.1 hkey
    rcases hst key.index with hsame | ⟨old, -, hgone⟩
    · exact h.live key (contains_iff_slot?.2 (hsame.symm.trans hslot))
    · exact absurd (congrArg Prod.snd (Option.some.inj (hgone.symm.trans hslot))) nofun
  issued key hkey := by
    rw [hissued] at hkey
    obtain ⟨generation, taken, hslot, horder⟩ := h.issued key hkey
    rcases hst key.index with hsame | ⟨old, hhere, hgone⟩
    · exact ⟨generation, taken, hsame.trans hslot, horder⟩
    · cases hslot.symm.trans hhere
      have hnext : generation < generation + 1 := by
        rw [UInt32.lt_iff_toNat_lt, toNat_next (h.fits _ _ _ hslot).2 hn]
        exact Nat.lt_succ_self _
      refine ⟨generation + 1, false, hgone, .inl ?_⟩
      rcases horder with hearlier | ⟨hsame, -⟩
      · exact UInt32.lt_trans hearlier hnext
      · exact hsame ▸ hnext

/-- A new key was not issued before: its slot was vacant, and keys of that generation are those to
    come. -/
theorem insert (h : s.Follows b n) (a : α) :
    (s.insert a).1 ∉ b.issued ∧ (s.insert a).2.Follows ⟨(s.insert a).1 :: b.issued,
      fun k => if k = (s.insert a).1 then some a else b.held k⟩ (n + 1) := by
  have hslot := slot?_insert h.wellFormed a
  have hkey := slot?_key_insert h.wellFormed a
  have hself := hslot (s.insert a).1.index
  rw [if_pos rfl] at hself
  have hnew : (s.insert a).1 ∉ b.issued := by
    intro hold
    obtain ⟨generation, taken, hhere, horder⟩ := h.issued _ hold
    rcases hkey with hvacant | hlast
    · cases hhere.symm.trans hvacant
      rcases horder with hlt | ⟨-, htaken⟩
      · exact absurd hlt (UInt32.lt_irrefl _)
      · cases htaken
    · rw [hlast, slot?_eq_none_iff.2 (Nat.le_refl _)] at hhere
      cases hhere
  refine ⟨hnew, wellFormed_insert h.wellFormed a, fun key => ?_, fun index generation taken hs => ?_,
    fun key hk => ?_, fun key hk => ?_⟩
  · by_cases hk : key = (s.insert a).1
    · simp [hk, get?_insert_self h.wellFormed]
    · simp [hk, get?_insert_of_ne h.wellFormed a hk, h.held]
  · rw [hslot] at hs
    split at hs
    · rename_i hindex
      cases hs
      rcases hkey with hvacant | hlast
      · obtain ⟨hlt, hbound⟩ := h.fits _ _ _ hvacant
        exact ⟨hindex ▸ Nat.lt_succ_of_lt hlt, Nat.le_succ_of_le hbound⟩
      · refine ⟨?_, by rw [hlast]; exact Nat.zero_le _⟩
        rw [hindex, hlast]
        -- the slot before the new one is among those of `s`
        cases hlen : s.slots.length with
        | zero => exact Nat.succ_pos n
        | succ m =>
          cases hm : s.slot? m with
          | none => exact absurd (slot?_eq_none_iff.1 hm) (by omega)
          | some found => exact Nat.succ_lt_succ (h.fits _ _ _ hm).1
    · obtain ⟨hlt, hbound⟩ := h.fits _ _ _ hs
      exact ⟨Nat.lt_succ_of_lt hlt, Nat.le_succ_of_le hbound⟩
  · have hs := contains_iff_slot?.1 hk
    rw [hslot] at hs
    split at hs
    · rename_i hindex
      simp only [Option.some.injEq, Prod.mk.injEq, and_true] at hs
      exact List.mem_cons.2 (.inl (key_ext hindex hs.symm))
    · exact List.mem_cons_of_mem _ (h.live key (contains_iff_slot?.2 hs))
  · rcases List.mem_cons.1 hk with rfl | hold
    · exact ⟨_, true, hself, .inr ⟨rfl, rfl⟩⟩
    · obtain ⟨generation, taken, hhere, horder⟩ := h.issued key hold
      rcases Grows.insert h.wellFormed a _ _ _ hhere with hsame | htaken
      · exact ⟨generation, taken, hsame, horder⟩
      · exact ⟨generation, true, htaken, horder.imp_right fun hboth => ⟨hboth.1, rfl⟩⟩

theorem slot?_modify (s : Slots α) (key : Key α) (f : α → α) (index : Nat) :
    (s.modify key f).slot? index = s.slot? index := by
  unfold Slots.modify
  split
  · rename_i a ha
    by_cases hindex : key.index = index
    · subst hindex
      simp only [slot?, List.getElem?_set_self (index_lt_of_get? ha), get?_eq_some_iff.1 ha,
        Option.map_some, Option.isSome_some]
    · simp only [slot?, List.getElem?_set_ne hindex]
  · rfl

/-- Each operation follows its rule. -/
theorem perform (h : s.Follows b n) (hn : n + 1 < 0x100000000) (op : Operation α) :
    ∃ c, b.Step op (s.perform op).1 c ∧ (s.perform op).2.Follows c (n + 1) := by
  cases op with
  | insert a =>
    obtain ⟨hnew, hfollows⟩ := h.insert a
    exact ⟨_, .insert a hnew, hfollows⟩
  | get key =>
    have hstep : b.Step (.get key) (.found (s.get? key)) b :=
      (Bindings.Step.get key).of_eq (by rw [h.held])
    exact ⟨b, hstep, h.shrink hn h.wellFormed (.of_slot? fun _ => rfl) rfl h.held⟩
  | modify key f =>
    have hstep := (Bindings.Step.modify (b := b) key f).of_eq (by rw [← h.held])
    refine ⟨_, hstep, h.shrink hn (wellFormed_modify h.wellFormed key f)
      (.of_slot? (slot?_modify s key f)) rfl fun k => ?_⟩
    dsimp only
    rw [← h.held]
    exact get?_modify s key f k
  | remove key =>
    have hstep := (Bindings.Step.remove (b := b) key).of_eq (by rw [← h.held, ← remove_fst])
    refine ⟨_, hstep, h.shrink hn (wellFormed_remove h.wellFormed key) (.remove s key) rfl
      fun k => ?_⟩
    dsimp only
    rw [← h.held]
    exact get?_remove s key k
  | sift visit memory =>
    have hstep : b.Step (.sift visit memory) (.removed (s.sift visit memory).1)
        { b with held := (s.sift visit memory).2.get? } :=
      (Bindings.Step.sift visit memory h.lists fun _ _ => get?_sift visit memory).of_eq
        (by rw [sift_fst])
    exact ⟨_, hstep, h.shrink hn (wellFormed_sift visit memory h.wellFormed)
      (shrinks_sift visit memory s) rfl fun _ => rfl⟩

theorem performAll (h : s.Follows b n) (ops : List (Operation α)) (hn : n + ops.length < 0x100000000) :
    ∃ c, Bindings.Run b (s.performAll ops).1 c ∧ (s.performAll ops).2.Follows c (n + ops.length) := by
  induction ops generalizing s b n with
  | nil => exact ⟨b, .nil b, h⟩
  | cons op ops ih =>
    rw [List.length_cons] at hn
    obtain ⟨c, hstep, hnext⟩ := h.perform (by omega) op
    obtain ⟨d, hrun, hlast⟩ := ih hnext (by omega)
    refine ⟨d, .cons hstep hrun, ?_⟩
    rw [List.length_cons, ← Nat.add_assoc, Nat.add_right_comm]
    exact hlast

end Follows

/-- Whatever is asked of an arena, up to as many times as a word can count: its answers are those of
    a finite map that issues each key once, and it shows what that map holds. A key that was issued
    and no longer resolves never resolves again. -/
theorem performAll_represents (ops : List (Operation α)) (hops : ops.length < 0x100000000) :
    (∃ b, Bindings.Run .empty ((empty : Slots α).performAll ops).1 b ∧
      ((empty : Slots α).performAll ops).2.Represents b) ∧
    ∀ before after, ops = before ++ after → ∀ op key,
      (op, .issued key) ∈ ((empty : Slots α).performAll before).1 →
      ((empty : Slots α).performAll before).2.get? key = none →
      ((empty : Slots α).performAll ops).2.get? key = none := by
  constructor
  · obtain ⟨b, hrun, hfollows⟩ := Follows.empty.performAll ops (by simpa using hops)
    exact ⟨b, hrun, hfollows.represents (by simpa using hops)⟩
  · rintro before after rfl op key hmem hgone
    rw [List.length_append] at hops
    obtain ⟨b, hrun, hfollows⟩ := Follows.empty.performAll before (by omega)
    obtain ⟨c, hlater, hlast⟩ := hfollows.performAll after (by omega)
    rw [performAll_append]
    exact (hlast.held key).trans
      (hlater.retired (hrun.mem_issued hmem) ((hfollows.held key).symm.trans hgone))

/-- A visitor doubles each of three entries and dooms every second one. The slot that this frees is
    used for the next entry, under another key, and the old key stays retired. -/
theorem freed_slot_reused :
    let everySecond : Key Nat → Nat → StateM Bool (Nat × Bool) :=
      fun _ a isDoomed => ((a * 2, isDoomed), !isDoomed)
    let before : List (Operation Nat) := [.insert 1, .insert 2, .insert 3, .sift everySecond false]
    let ops := before ++ [.insert 5]
    let out := (empty : Slots Nat).performAll ops
    ops.length < 0x100000000 ∧
      out.1.map Prod.snd = [.issued ⟨0, 0⟩, .issued ⟨1, 0⟩, .issued ⟨2, 0⟩,
        .removed [(⟨1, 0⟩, 4)], .issued ⟨1, 1⟩] ∧
      out.2.entries = [(⟨0, 0⟩, 2), (⟨1, 1⟩, 5), (⟨2, 0⟩, 6)] ∧ out.2.get? ⟨1, 0⟩ = none ∧
      ∃ b, Bindings.Run .empty out.1 b ∧ out.2.Represents b := by
  intro everySecond before ops out
  have hops : ops.length < 0x100000000 := by decide
  have hissued : (.insert 2, .issued ⟨1, 0⟩) ∈ ((empty : Slots Nat).performAll before).1 :=
    .tail _ (.head _)
  obtain ⟨hmap, hretired⟩ := performAll_represents ops hops
  exact ⟨hops, rfl, rfl, hretired before [.insert 5] rfl _ _ hissued rfl, hmap⟩

end Slots

end NameRelay
