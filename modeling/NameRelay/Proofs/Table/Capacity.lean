-- SUMMARY: When a content store is within its limit.
import NameRelay.Proofs.Table.Contents
import NameRelay.Proofs.Table.Listing

/-!
# The limit of a content store

A full store lets one packet go for each that it takes in. So a store that is within its limit stays
within it, whatever is done to it but a change of the limit itself. A limit below the number of
packets lets none of them go when it is set, and each packet that comes later replaces one: the store
stays above the limit until enough packets go in another way, or the limit is set again.
-/

namespace NameRelay

namespace ContentStore

variable {s t : ContentStore} {packet : Packet} {flags : ContentFlags} {now : Instant}

/-- More packets are stored than the limit allows. -/
def Exceeds (s : ContentStore) : Prop := 0 < s.limit ∧ s.limit < s.size

instance (s : ContentStore) : Decidable s.Exceeds := inferInstanceAs (Decidable (_ ∧ _))

/-- The limit stays, and no more packets are stored than before. -/
theorem Exceeds.of_le (h : t.Exceeds) (hlimit : t.limit = s.limit) (hsize : t.size ≤ s.size) :
    s.Exceeds := by
  rw [Exceeds, hlimit] at h
  exact ⟨h.1, h.2.trans_le (Int.ofNat_le.2 hsize)⟩

-- ---------------------------------------------------------------------------
-- Storing a packet
-- ---------------------------------------------------------------------------

theorem size_add (s : ContentStore) (packet : Packet) (flags : ContentFlags) (now : Instant) :
    (s.add packet flags now).2.size = s.size + 1 := s.slots.size_insert _

theorem limit_insert (s : ContentStore) (packet : Packet) (flags : ContentFlags) (now : Instant) :
    (s.insert packet flags now).2.limit = s.limit := by
  have hcases := s.insert_cases packet flags now
  generalize s.insert packet flags now = out at *
  cases hcases <;> rfl

/-- A packet takes the place of the one that goes for it. -/
theorem size_replaced (h : s.slots.WellFormed) {key : ContentKey} {e : StoredContent}
    (hstored : s.get? key = some e) : ((s.remove key).2.add packet flags now).2.size = s.size :=
  (size_add _ packet flags now).trans (Slots.size_remove h hstored)

/-- Storing a packet neither brings a store above its limit nor back within it. -/
theorem exceeds_insert_iff (h : s.slots.WellFormed) (packet : Packet) (flags : ContentFlags)
    (now : Instant) : (s.insert packet flags now).2.Exceeds ↔ s.Exceeds := by
  have hlimit := s.limit_insert packet flags now
  have hcases := s.insert_cases packet flags now
  generalize s.insert packet flags now = out at *
  cases hcases with
  | present | unwanted | refused => exact Iff.rfl
  | replaced _ _ hoff => rw [Exceeds, Exceeds, hlimit, size_replaced h hoff.stored]
  | added _ _ hroom =>
    have hbelow : 0 < s.limit → (s.size : Int) < s.limit := by simpa [isFull] using hroom
    have hsize := size_add s packet flags now
    rw [Exceeds, Exceeds, hlimit, hsize]
    constructor
    · rintro ⟨hpos, hover⟩
      exact absurd (hbelow hpos) (Int.not_lt.2 (Int.le_of_lt_add_one hover))
    · rintro ⟨hpos, hover⟩
      exact absurd (hbelow hpos) (Int.not_lt.2 hover.le)

-- ---------------------------------------------------------------------------
-- Runs
-- ---------------------------------------------------------------------------

/-- One thing that is done to a store. -/
inductive Operation where
  | insert (packet : Packet) (flags : ContentFlags) (now : Instant)
  | touch (key : ContentKey) (now : Instant)
  /-- Any change of an entry where it stands. -/
  | modify (key : ContentKey) (f : StoredContent → StoredContent)
  | markStale (name : Name)
  /-- Any change of all entries where they stand. -/
  | mapEntries (f : StoredContent → StoredContent)
  | remove (key : ContentKey)
  | removeNamed (name : Name)
  | evict
  | expire (expired : StoredContent → Bool)
  | setLimit (limit : Int)

def perform (s : ContentStore) : Operation → ContentStore
  | .insert packet flags now => (s.insert packet flags now).2
  | .touch key now => s.touch key now
  | .modify key f => s.modify key f
  | .markStale name => (s.markStale name).2
  | .mapEntries f => { s with slots := s.slots.mapEntries f }
  | .remove key => (s.remove key).2
  | .removeNamed name => (s.removeNamed name).2
  | .evict => s.evict.2
  | .expire expired => (s.expire expired).2
  | .setLimit limit => { s with limit }

def performAll (s : ContentStore) (ops : List Operation) : ContentStore := ops.foldl perform s

theorem performAll_concat (s : ContentStore) (ops : List Operation) (op : Operation) :
    s.performAll (ops ++ [op]) = (s.performAll ops).perform op := by
  rw [performAll, performAll, List.foldl_append, List.foldl_cons, List.foldl_nil]

theorem wellFormed_perform (h : s.slots.WellFormed) (op : Operation) :
    (s.perform op).slots.WellFormed := by
  cases op with
  | insert packet flags now => exact wellFormed_insert h packet flags now
  | touch key => exact Slots.wellFormed_modify h key _
  | modify key f => exact Slots.wellFormed_modify h key f
  | markStale | mapEntries => exact Slots.wellFormed_mapEntries h _
  | remove key => exact Slots.wellFormed_remove h key
  | removeNamed | expire => exact Slots.wellFormed_removeWhere h _
  | evict =>
    change s.evict.2.slots.WellFormed
    rcases s.evict_cases with ⟨heq, -⟩ | ⟨key, _, heq, -⟩
    · rw [heq]
      exact h
    · rw [heq]
      exact Slots.wellFormed_remove h key
  | setLimit => exact h

theorem wellFormed_performAll (h : s.slots.WellFormed) (ops : List Operation) :
    (s.performAll ops).slots.WellFormed := by
  induction ops generalizing s with
  | nil => exact h
  | cons op ops ih => exact ih (wellFormed_perform h op)

/-- Only a change of its limit brings a store above it. -/
theorem Exceeds.of_perform (h : s.slots.WellFormed) {op : Operation} (hover : (s.perform op).Exceeds) :
    s.Exceeds ∨ ∃ limit, op = .setLimit limit := by
  cases op with
  | insert packet flags now => exact .inl ((exceeds_insert_iff h packet flags now).1 hover)
  | touch key => exact .inl (hover.of_le rfl (Slots.size_modify _ key _).le)
  | modify key f => exact .inl (hover.of_le rfl (Slots.size_modify _ key f).le)
  | markStale | mapEntries => exact .inl (hover.of_le rfl (Slots.size_mapEntries _ _).le)
  | remove key => exact .inl (hover.of_le rfl (Slots.size_remove_le _ key))
  | removeNamed | expire => exact .inl (hover.of_le rfl (Slots.size_removeWhere_le _ _))
  | evict =>
    change s.evict.2.Exceeds at hover
    rcases s.evict_cases with ⟨heq, -⟩ | ⟨key, _, heq, -⟩
    · rw [heq] at hover
      exact .inl hover
    · rw [heq] at hover
      exact .inl (hover.of_le rfl (Slots.size_remove_le _ key))
  | setLimit limit => exact .inr ⟨limit, rfl⟩

/-- The limit was set to less than what was stored, and the store has been above it ever since. -/
def Overrun (s : ContentStore) (ops : List Operation) : Prop :=
  ∃ before limit after, ops = before ++ .setLimit limit :: after ∧
    ∀ past, past <+: after → (s.performAll (before ++ .setLimit limit :: past)).Exceeds

theorem exceeds_performAll_iff (h : s.slots.WellFormed) (hwithin : ¬s.Exceeds)
    (ops : List Operation) : (s.performAll ops).Exceeds ↔ s.Overrun ops := by
  constructor
  · intro hover
    induction ops using List.reverseRecOn with
    | nil => exact absurd hover hwithin
    | append_singleton ops op ih =>
      rw [performAll_concat] at hover
      rcases hover.of_perform (wellFormed_performAll h ops) with hbefore | ⟨limit, rfl⟩
      · obtain ⟨before, limit, after, rfl, hsince⟩ := ih hbefore
        refine ⟨before, limit, after ++ [op], by simp, fun past hpast => ?_⟩
        rcases List.prefix_concat_iff.1 hpast with rfl | hearlier
        · rwa [← performAll_concat, List.append_assoc, List.cons_append] at hover
        · exact hsince past hearlier
      · refine ⟨ops, limit, [], rfl, fun past hpast => ?_⟩
        rw [List.prefix_nil.1 hpast]
        rwa [← performAll_concat] at hover
  · rintro ⟨before, limit, after, rfl, hsince⟩
    exact hsince after List.prefix_rfl

-- ---------------------------------------------------------------------------
-- The bound
-- ---------------------------------------------------------------------------

/-- After a packet was stored, the store is within its limit unless the limit was set to less than
    what was stored and the store has been above it ever since. -/
theorem insert_within_limit_iff (limit : Int) (ops : List Operation) (packet : Packet)
    (flags : ContentFlags) (now : Instant) (hpos : 0 < ((empty limit).performAll ops).limit) :
    (((empty limit).performAll ops).insert packet flags now).2.size
        ≤ ((empty limit).performAll ops).limit ↔ ¬(empty limit).Overrun ops := by
  have hempty : (empty limit).slots.WellFormed := Slots.wellFormed_empty
  have hwithin : ¬(empty limit).Exceeds := fun hover =>
    Int.lt_irrefl 0 (hover.1.trans hover.2)
  have hiff := exceeds_insert_iff (wellFormed_performAll hempty ops) packet flags now
  rw [← exceeds_performAll_iff hempty hwithin ops, ← hiff, Exceeds, limit_insert, not_and, Int.not_lt]
  exact ⟨fun hle _ => hle, fun hle => hle hpos⟩

/-- A content packet whose name and payload are one letter each. -/
def page (letter : UInt8) : Packet where
  bytes := [6, 17, 7, 3, 8, 1, letter, 20, 0, 21, 1, letter, 22, 3, 27, 1, 0, 23, 0]
  body := .message .content ⟨.ndn, [[letter]], none, .none⟩ (some ⟨11, 12⟩)
  details := .ndn {}

/-- Two packets are stored without a limit, and then one is allowed: the third one takes the place of
    the first, and there are still two. -/
theorem lowered_limit_overrun :
    let ops : List Operation :=
      [.insert (page 97) {} ⟨1⟩, .insert (page 98) {} ⟨2⟩, .setLimit 1]
    let s := (empty (-1)).performAll ops
    0 < s.limit ∧ (∃ key evicted, (s.insert (page 99) {} ⟨3⟩).1 = .stored key evicted) ∧
      ¬((s.insert (page 99) {} ⟨3⟩).2.size : Int) ≤ s.limit := by
  intro ops s
  have hpos : 0 < s.limit := by decide
  refine ⟨hpos, ⟨_, _, rfl⟩, fun hle => ?_⟩
  refine (insert_within_limit_iff (-1) ops (page 99) {} ⟨3⟩ hpos).1 hle ⟨ops.take 2, 1, [], rfl, ?_⟩
  intro past hpast
  rw [List.prefix_nil.1 hpast]
  decide

end ContentStore

end NameRelay
