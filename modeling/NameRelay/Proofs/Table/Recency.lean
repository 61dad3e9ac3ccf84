-- SUMMARY: A content store with a limit is a cache that lets the packet go that was used least recently.
import Mathlib.Data.List.DropRight
import NameRelay.Proofs.Table.Capacity
import NameRelay.Proofs.Table.Pinned

/-!
# The order of use

The store finds the packet that has to go by the times at which its packets were used, which it
looks through in the order of the slots. The cache it is compared with here knows neither times nor
slots: it keeps its packets in the order of their last use, and the first one that may go does. As
long as each use is later than the ones before, the store is this cache: it holds the same packets
after every run of uses, and says the same to each packet that is to be stored.
-/

namespace NameRelay

-- ---------------------------------------------------------------------------
-- The cache
-- ---------------------------------------------------------------------------

/-- A packet in a cache, and what it is called. -/
structure CachedPacket where
  name : ContentKey
  packet : Packet
  pinned : Bool

def CachedPacket.mayGo (item : CachedPacket) : Bool := !item.pinned

/-- A cache with room for `capacity` packets, in the order in which they were last used: the one that
    was used least recently is the first. -/
structure LruCache where
  capacity : Nat
  items : List CachedPacket

/-- What becomes of a packet that is to be stored. -/
inductive Verdict where
  | stored (evicted : Option Packet)
  | unchanged
  | full

def StoreOutcome.verdict : StoreOutcome → Verdict
  | stored _ evicted => .stored (evicted.map (·.packet))
  | unchanged => .unchanged
  | full => .full

/-- What the store calls the packet, if it takes it in. -/
def StoreOutcome.name : StoreOutcome → ContentKey
  | stored key _ => key
  | _ => ⟨0, 0⟩

/-- One use of a store. -/
inductive Use where
  | insert (packet : Packet) (flags : ContentFlags) (now : Instant)
  | touch (key : ContentKey) (now : Instant)
  | remove (key : ContentKey)

namespace Use

def time? : Use → Option Instant
  | insert _ _ now => some now
  | touch _ now => some now
  | remove _ => none

/-- The packet that is to be stored, if one is. -/
def packet? : Use → Option Packet
  | insert packet _ _ => some packet
  | _ => none

/-- A packet is to be stored, and not to be pinned. -/
def Loose : Use → Prop
  | insert _ flags _ => flags.pinned = false
  | _ => False

end Use

namespace LruCache

def empty (capacity : Nat) : LruCache := ⟨capacity, []⟩

def holds (c : LruCache) (packet : Packet) : Bool := c.items.any (·.packet.sameBytes packet)

/-- A new packet comes last. If the cache is full, the first one goes that is not pinned. -/
def insert (c : LruCache) (item : CachedPacket) : Verdict × LruCache :=
  if c.holds item.packet then (.unchanged, c)
  else if c.items.length < c.capacity then
    (.stored none, { c with items := c.items ++ [item] })
  else
    match c.items.find? CachedPacket.mayGo with
    | some victim =>
      (.stored (some victim.packet), { c with items := c.items.eraseP CachedPacket.mayGo ++ [item] })
    | none => (.full, c)

/-- A packet that is used comes last. -/
def touch (c : LruCache) (name : ContentKey) : LruCache :=
  { c with items := c.items.filter (·.name ≠ name) ++ c.items.filter (·.name = name) }

def remove (c : LruCache) (name : ContentKey) : LruCache :=
  { c with items := c.items.filter (·.name ≠ name) }

end LruCache

namespace ContentStore

variable {s : ContentStore} {c : LruCache} {l : List (ContentKey × StoredContent)}
  {packet : Packet} {flags : ContentFlags} {now : Instant}

def use (s : ContentStore) : Use → ContentStore
  | .insert packet flags now => (s.insert packet flags now).2
  | .touch key now => s.touch key now
  | .remove key => (s.remove key).2

def useAll (s : ContentStore) (uses : List Use) : ContentStore := uses.foldl use s

theorem limit_useAll (s : ContentStore) (uses : List Use) : (s.useAll uses).limit = s.limit := by
  induction uses generalizing s with
  | nil => rfl
  | cons u uses ih =>
    refine (ih (s.use u)).trans ?_
    cases u with
    | insert packet flags now => exact s.limit_insert packet flags now
    | touch | remove => rfl

/-- What a use of the store makes of a cache that calls its packets what the store calls them. -/
def followOne (s : ContentStore) (c : LruCache) : Use → LruCache
  | .insert packet flags now =>
    (c.insert ⟨(s.insert packet flags now).1.name, packet, flags.pinned⟩).2
  | .touch key _ => c.touch key
  | .remove key => c.remove key

def follow (s : ContentStore) (c : LruCache) : List Use → LruCache
  | [] => c
  | u :: uses => (s.use u).follow (s.followOne c u) uses

-- ---------------------------------------------------------------------------
-- The order of use
-- ---------------------------------------------------------------------------

/-- The entries of a store, each behind those that were used before it. -/
structure ByUse (s : ContentStore) (l : List (ContentKey × StoredContent)) : Prop where
  perm : l.Perm s.entries
  sorted : l.Pairwise fun d e => d.2.lastUsed.micros < e.2.lastUsed.micros

/-- All uses of the stored packets were before `now`. -/
def UsedBefore (s : ContentStore) (now : Instant) : Prop :=
  ∀ key e, s.get? key = some e → e.lastUsed.micros < now.micros

namespace ByUse

theorem mem_iff (h : s.ByUse l) {key : ContentKey} {e : StoredContent} :
    (key, e) ∈ l ↔ s.get? key = some e := h.perm.mem_iff.trans Slots.mem_entries

/-- An entry that goes leaves the others in their order. -/
theorem without (h : s.ByUse l) (key : ContentKey) {t : ContentStore}
    (ht : t.entries.Perm (s.entries.filter fun e => e.1 ≠ key)) :
    t.ByUse (l.filter fun e => e.1 ≠ key) where
  perm := (h.perm.filter _).trans ht.symm
  sorted := h.sorted.filter _

/-- An entry that is used now comes behind the others. -/
theorem concat (h : s.ByUse l) (hnow : s.UsedBefore now) {t : ContentStore} {key : ContentKey}
    {e : StoredContent} (ht : t.entries.Perm ((key, e) :: s.entries)) (he : e.lastUsed = now) :
    t.ByUse (l ++ [(key, e)]) where
  perm := List.perm_append_comm.trans ((h.perm.cons _).trans ht.symm)
  sorted := by
    refine List.pairwise_append.2 ⟨h.sorted, List.pairwise_singleton _ _, ?_⟩
    rintro ⟨k, d⟩ hd _ hlast
    rw [List.mem_singleton.1 hlast, he]
    exact hnow k d (h.mem_iff.1 hd)

theorem filter_key (h : s.ByUse l) {key : ContentKey} {e : StoredContent}
    (he : s.get? key = some e) : l.filter (fun d => d.1 = key) = [(key, e)] := by
  have hperm := (h.perm.trans (Slots.entries_perm_cons he)).filter fun d => d.1 = key
  simpa [List.filter_filter] using hperm

/-- The entry that goes for a new one is the first in the order of use that is not pinned. -/
theorem split_oldest (h : s.ByUse l) {key : ContentKey} {e : StoredContent}
    (hoff : s.Oldest key e) : ∃ before after, l = before ++ (key, e) :: after ∧
      ∀ d ∈ before, d.2.flags.pinned = true := by
  obtain ⟨before, after, rfl⟩ := List.append_of_mem (h.mem_iff.2 hoff.stored)
  refine ⟨before, after, rfl, ?_⟩
  rintro ⟨k, d⟩ hd
  rw [← Bool.not_eq_false]
  intro hloose
  have hfirst := (List.pairwise_append.1 h.sorted).2.2 _ hd _ List.mem_cons_self
  have hleast := hoff.least k d (h.mem_iff.1 (List.mem_append_left _ hd)) hloose
  exact absurd hleast (Nat.not_le.2 hfirst)

end ByUse

theorem UsedBefore.remove (h : s.UsedBefore now) (key : ContentKey) :
    (s.remove key).2.UsedBefore now := fun k e he =>
  h k e (Spares.get? (.inr ⟨key, rfl⟩) he)

theorem UsedBefore.use (h : s.UsedBefore now) {u : Use}
    (hu : ∀ t, u.time? = some t → t.micros < now.micros) : (s.use u).UsedBefore now := by
  intro k e he
  cases u with
  | insert packet flags t =>
    rcases entry_of_get?_insert he with rfl | hold
    · exact hu t rfl
    · exact h k e hold
  | touch key t =>
    obtain ⟨old, hold, rfl | ⟨-, rfl⟩⟩ := Slots.get?_of_get?_modify he
    · exact h k e hold
    · exact hu t rfl
  | remove key => exact h.remove key k e he

-- ---------------------------------------------------------------------------
-- The store and the cache
-- ---------------------------------------------------------------------------

/-- An entry as the cache has it. -/
def cached (e : ContentKey × StoredContent) : CachedPacket := ⟨e.1, e.2.packet, e.2.flags.pinned⟩

/-- The cache holds what the store does. -/
def SameContents (s : ContentStore) (c : LruCache) : Prop :=
  ∀ item, item ∈ c.items ↔ ∃ e, s.get? item.name = some e ∧ e.packet = item.packet ∧
    e.flags.pinned = item.pinned

theorem SameContents.mem_packets_iff (h : s.SameContents c) :
    packet ∈ c.items.map (·.packet) ↔ ∃ key e, s.get? key = some e ∧ e.packet = packet := by
  rw [List.mem_map]
  constructor
  · rintro ⟨item, hitem, rfl⟩
    obtain ⟨e, he, hpacket, -⟩ := (h item).1 hitem
    exact ⟨item.name, e, he, hpacket⟩
  · rintro ⟨key, e, he, rfl⟩
    exact ⟨⟨key, e.packet, e.flags.pinned⟩, (h _).2 ⟨e, he, rfl, rfl⟩, rfl⟩

/-- The cache holds what the store does, in the order of use. -/
structure Mirrors (s : ContentStore) (c : LruCache) : Prop where
  wellFormed : s.slots.WellFormed
  limit : s.limit = c.capacity
  positive : 0 < c.capacity
  byUse : ∃ l, s.ByUse l ∧ c.items = l.map cached

namespace ByUse

/-- The cache finds the same packet that has to go, and no longer has it afterwards. -/
theorem evicted (h : s.ByUse l) {key : ContentKey} {e : StoredContent} (hoff : s.Oldest key e) :
    (l.map cached).find? CachedPacket.mayGo = some (cached (key, e)) ∧
      (l.map cached).eraseP CachedPacket.mayGo = (l.filter fun d => d.1 ≠ key).map cached := by
  have hkeys : (l.map (·.1)).Nodup := (h.perm.map _).nodup_iff.2 s.slots.nodup_keys
  obtain ⟨before, after, rfl, hpinned⟩ := h.split_oldest hoff
  have hbefore : ∀ item ∈ before.map cached, ¬item.mayGo = true := by
    intro item hitem
    obtain ⟨d, hd, rfl⟩ := List.mem_map.1 hitem
    simp [CachedPacket.mayGo, cached, hpinned d hd]
  have hvictim : (cached (key, e)).mayGo = true := by
    simp [CachedPacket.mayGo, cached, hoff.loose]
  rw [List.map_append, List.map_cons, List.nodup_middle, List.nodup_cons, ← List.map_append,
    List.mem_map] at hkeys
  have hothers : ∀ d ∈ before ++ after, decide (d.1 ≠ key) = true := fun d hd =>
    decide_eq_true fun heq => hkeys.1 ⟨d, hd, heq⟩
  rw [List.map_append, List.map_cons]
  constructor
  · rw [List.find?_append, List.find?_eq_none.2 hbefore, List.find?_cons_of_pos hvictim]
    rfl
  · rw [List.eraseP_append_right _ hbefore, List.eraseP_cons_of_pos hvictim, List.filter_append,
      List.filter_cons_of_neg (by simp), ← List.filter_append, List.filter_eq_self.2 hothers,
      List.map_append]

end ByUse

namespace Mirrors

theorem sameContents (h : s.Mirrors c) : s.SameContents c := by
  intro item
  obtain ⟨l, hl, hitems⟩ := h.byUse
  rw [hitems, List.mem_map]
  constructor
  · rintro ⟨⟨k, e⟩, he, rfl⟩
    exact ⟨e, hl.mem_iff.1 he, rfl, rfl⟩
  · rintro ⟨e, he, hpacket, hpinned⟩
    refine ⟨(item.name, e), hl.mem_iff.2 he, ?_⟩
    rw [cached, hpacket, hpinned]

theorem length_items (h : s.Mirrors c) : c.items.length = s.size := by
  obtain ⟨l, hl, hitems⟩ := h.byUse
  rw [hitems, List.length_map, hl.perm.length_eq]
  exact h.wellFormed.length_entries

theorem holds_iff (h : s.Mirrors c) : c.holds packet = true ↔ s.duplicate? packet ≠ none := by
  rw [← Option.isSome_iff_ne_none, ← not_iff_not, Option.not_isSome_iff_eq_none,
    duplicate?, Slots.find?_eq_none_iff, LruCache.holds, List.any_eq_true]
  constructor
  · intro hno key e he
    rw [← Bool.not_eq_true]
    exact fun hsame => hno ⟨⟨key, e.packet, e.flags.pinned⟩, (h.sameContents _).2 ⟨e, he, rfl, rfl⟩,
      hsame⟩
  · rintro hno ⟨item, hitem, hsame⟩
    obtain ⟨e, he, hpacket, -⟩ := (h.sameContents item).1 hitem
    rw [← hpacket] at hsame
    cases (hno item.name e he).symm.trans hsame

theorem isFull_iff (h : s.Mirrors c) : s.isFull = true ↔ ¬c.items.length < c.capacity := by
  have hpos : 0 < s.limit := h.limit ▸ Int.natCast_pos.2 h.positive
  rw [h.length_items, isFull, Bool.and_eq_true, decide_eq_true_iff, decide_eq_true_iff, h.limit,
    Nat.not_lt, Int.ofNat_le]
  exact and_iff_right (h.limit ▸ hpos)

theorem find?_eq_none (h : s.Mirrors c) (hall : s.AllPinned) :
    c.items.find? CachedPacket.mayGo = none := by
  refine List.find?_eq_none.2 fun item hitem => ?_
  obtain ⟨e, he, -, hpinned⟩ := (h.sameContents item).1 hitem
  rw [CachedPacket.mayGo, ← hpinned, hall _ e he]
  decide

/-- The store and the cache do the same with a packet that is to be stored. -/
theorem insert (h : s.Mirrors c) (packet : Packet) (flags : ContentFlags) (now : Instant)
    (name : ContentKey) :
    (s.insert packet flags now).1.verdict = (c.insert ⟨name, packet, flags.pinned⟩).1 ∧
      (s.UsedBefore now → name = (s.insert packet flags now).1.name →
        (s.insert packet flags now).2.Mirrors (c.insert ⟨name, packet, flags.pinned⟩).2) := by
  have hcases := s.insert_cases packet flags now
  generalize s.insert packet flags now = out at *
  have hnew : s.duplicate? packet = none → ¬c.holds packet = true := fun hnone hthere =>
    h.holds_iff.1 hthere hnone
  cases hcases with
  | present hthere =>
    rw [LruCache.insert, if_pos (h.holds_iff.2 hthere)]
    exact ⟨rfl, fun _ _ => h⟩
  | unwanted hlimit =>
    exact absurd (Int.ofNat.inj (h.limit.symm.trans hlimit)) h.positive.ne'
  | refused hnone hfull hall =>
    rw [LruCache.insert, if_neg (hnew hnone), if_neg (h.isFull_iff.1 hfull), h.find?_eq_none hall]
    exact ⟨rfl, fun _ _ => h⟩
  | @replaced key e hnone hfull hoff =>
    obtain ⟨l, hl, hitems⟩ := h.byUse
    obtain ⟨hfind, hrest⟩ := hl.evicted hoff
    rw [LruCache.insert, if_neg (hnew hnone), if_neg (h.isFull_iff.1 hfull), hitems, hfind, hrest]
    refine ⟨rfl, fun hnow hname => ?_⟩
    have hremoved := Slots.wellFormed_remove h.wellFormed key
    refine ⟨Slots.wellFormed_insert hremoved _, h.limit, h.positive, _,
      (hl.without key (t := (s.remove key).2) (s.slots.entries_remove key)).concat
        (hnow.remove key) (Slots.entries_insert hremoved _) rfl, ?_⟩
    rw [List.map_append, hname]
    rfl
  | added hnone _ hroom =>
    obtain ⟨l, hl, hitems⟩ := h.byUse
    have hless : c.items.length < c.capacity :=
      Classical.not_not.1 fun hno => Bool.false_ne_true (hroom.symm.trans (h.isFull_iff.2 hno))
    rw [LruCache.insert, if_neg (hnew hnone), if_pos hless]
    refine ⟨rfl, fun hnow hname => ?_⟩
    refine ⟨Slots.wellFormed_insert h.wellFormed _, h.limit, h.positive, _,
      hl.concat hnow (Slots.entries_insert h.wellFormed _) rfl, ?_⟩
    rw [List.map_append, hname, ← hitems]
    rfl

theorem remove (h : s.Mirrors c) (key : ContentKey) : (s.remove key).2.Mirrors (c.remove key) := by
  obtain ⟨l, hl, hitems⟩ := h.byUse
  refine ⟨Slots.wellFormed_remove h.wellFormed key, h.limit, h.positive, _,
    hl.without key (s.slots.entries_remove key), ?_⟩
  rw [LruCache.remove, hitems, List.filter_map]
  rfl

/-- A packet that is used takes its place behind those that were used before. -/
theorem touch (h : s.Mirrors c) (key : ContentKey) (hnow : s.UsedBefore now) :
    (s.touch key now).Mirrors (c.touch key) := by
  obtain ⟨l, hl, hitems⟩ := h.byUse
  have hafter : (c.touch key).items = (l.filter fun d => d.1 ≠ key).map cached ++
      (l.filter fun d => d.1 = key).map cached := by
    rw [LruCache.touch, hitems, List.filter_map, List.filter_map]
    rfl
  cases hget : s.get? key with
  | none =>
    have hother : ∀ d ∈ l, d.1 ≠ key := by
      rintro ⟨k, d⟩ hd rfl
      cases hget.symm.trans (hl.mem_iff.1 hd)
    have hsame : s.touch key now = s := by
      rw [ContentStore.touch, modify, Slots.modify, show s.slots.get? key = none from hget]
    rw [hsame]
    refine ⟨h.wellFormed, h.limit, h.positive, l, hl, hafter.trans ?_⟩
    rw [List.filter_eq_self.2 fun d hd => decide_eq_true (hother d hd),
      List.filter_eq_nil_iff.2 fun d hd => by simpa using hother d hd]
    exact List.append_nil _
  | some e =>
    have hrest := hl.without key (t := (s.remove key).2) (s.slots.entries_remove key)
    have hentries := (Slots.entries_modify hget
      fun e => { e with lastUsed := now, served := min (e.served + 1) maxServed }).trans
        ((s.slots.entries_remove key).symm.cons _)
    refine ⟨Slots.wellFormed_modify h.wellFormed key _, h.limit, h.positive, _,
      hrest.concat (hnow.remove key) hentries rfl, hafter.trans ?_⟩
    rw [hl.filter_key hget, List.map_append]
    rfl

theorem followOne (h : s.Mirrors c) {u : Use} (hnow : ∀ t, u.time? = some t → s.UsedBefore t) :
    (s.use u).Mirrors (s.followOne c u) := by
  cases u with
  | insert packet flags now => exact (h.insert packet flags now _).2 (hnow now rfl) rfl
  | touch key now => exact h.touch key (hnow now rfl)
  | remove key => exact h.remove key

theorem follow (h : s.Mirrors c) {uses : List Use}
    (hbefore : ∀ t ∈ uses.filterMap Use.time?, s.UsedBefore t)
    (hturn : (uses.filterMap Use.time?).Pairwise fun t u => t.micros < u.micros) :
    (s.useAll uses).Mirrors (s.follow c uses) := by
  induction uses generalizing s c with
  | nil => exact h
  | cons u uses ih =>
    have hlater : (uses.filterMap Use.time?).Sublist ((u :: uses).filterMap Use.time?) :=
      (List.sublist_cons_self u uses).filterMap _
    have hone := h.followOne fun t ht =>
      hbefore t (List.mem_filterMap.2 ⟨u, List.mem_cons_self, ht⟩)
    refine ih hone (fun t ht => ?_) (hturn.sublist hlater)
    refine (hbefore t (hlater.subset ht)).use fun now hnow => ?_
    rw [List.filterMap_cons_some hnow, List.pairwise_cons] at hturn
    exact hturn.1 t ht

end Mirrors

-- ---------------------------------------------------------------------------
-- Packets that are not used again
-- ---------------------------------------------------------------------------

theorem map_rtake {α β : Type} (f : α → β) (l : List α) (n : Nat) :
    (l.rtake n).map f = (l.map f).rtake n := by
  rw [List.rtake, List.rtake, List.map_drop, List.length_map]

theorem rtake_rtake_succ {α : Type} (l : List α) (n : Nat) :
    (l.rtake (n + 1)).rtake n = l.rtake n := by
  rw [List.rtake, List.rtake, List.rtake, List.length_drop, List.drop_drop]
  congr 1
  omega

theorem LruCache.capacity_insert (c : LruCache) (item : CachedPacket) :
    (c.insert item).2.capacity = c.capacity := by
  rw [LruCache.insert]
  split
  · rfl
  · split
    · rfl
    · split <;> rfl

/-- Of a full cache without pinned packets the first one goes. -/
theorem LruCache.items_insert_loose {c : LruCache} {n : Nat} (hcapacity : c.capacity = n + 1)
    (hlength : c.items.length ≤ n + 1) (hloose : ∀ item ∈ c.items, item.pinned = false)
    {item : CachedPacket} (hnew : c.holds item.packet = false) :
    (c.insert item).2.items = c.items.rtake n ++ [item] := by
  rw [LruCache.insert, if_neg (ne_true_of_eq_false hnew)]
  split
  · rename_i hroom
    rw [hcapacity, Nat.lt_succ_iff] at hroom
    rw [List.rtake, Nat.sub_eq_zero_of_le hroom, List.drop_zero]
  · rename_i hfull
    rw [hcapacity, Nat.not_lt] at hfull
    cases hitems : c.items with
    | nil =>
      rw [hitems] at hfull
      cases hfull
    | cons first rest =>
      rw [hitems] at hfull hlength
      have hgoes : first.mayGo = true := by
        rw [CachedPacket.mayGo, hloose first (hitems ▸ List.mem_cons_self)]
        rfl
      have hone : (first :: rest).length - n = 1 := by omega
      rw [List.find?_cons_of_pos hgoes, List.eraseP_cons_of_pos hgoes, List.rtake, hone]
      rfl

theorem follow_concat (s : ContentStore) (c : LruCache) (uses : List Use) (u : Use) :
    s.follow c (uses ++ [u]) = (s.useAll uses).followOne (s.follow c uses) u := by
  induction uses generalizing s c with
  | nil => rfl
  | cons first uses ih => exact ih _ _

/-- The cache holds the last packets of those that came in, if none was pinned or came twice. -/
theorem follow_loose (s : ContentStore) {n : Nat} {uses : List Use} (hloose : ∀ u ∈ uses, u.Loose)
    (hnew : (uses.filterMap Use.packet?).Pairwise fun p q => p.sameBytes q = false) :
    let c := s.follow (.empty (n + 1)) uses
    c.capacity = n + 1 ∧ (∀ item ∈ c.items, item.pinned = false) ∧
      c.items.map (·.packet) = (uses.filterMap Use.packet?).rtake (n + 1) := by
  induction uses using List.reverseRecOn with
  | nil => exact ⟨rfl, fun _ hitem => absurd hitem List.not_mem_nil, (List.rtake_nil _).symm⟩
  | append_singleton uses u ih =>
    rw [List.filterMap_append, List.pairwise_append] at hnew
    obtain ⟨hcapacity, hitems, hpackets⟩ :=
      ih (fun v hv => hloose v (List.mem_append_left _ hv)) hnew.1
    have hlast := hloose u (List.mem_append_right _ (List.mem_singleton_self u))
    rw [follow_concat]
    generalize s.follow (.empty (n + 1)) uses = c at *
    cases u with
    | touch | remove => exact hlast.elim
    | insert packet flags now =>
      have hlength : c.items.length ≤ n + 1 := by
        rw [← List.length_map, hpackets, List.rtake, List.length_drop]
        omega
      have hfresh : c.holds packet = false := by
        refine List.any_eq_false.2 fun item hitem => ne_true_of_eq_false ?_
        have hmem := List.mem_map_of_mem (f := CachedPacket.packet) hitem
        rw [hpackets] at hmem
        exact hnew.2.2 _ (List.mem_of_mem_drop hmem) _ List.mem_cons_self
      refine ⟨(LruCache.capacity_insert c _).trans hcapacity, ?_, ?_⟩
      · change ∀ item ∈ (c.insert _).2.items, item.pinned = false
        rw [LruCache.items_insert_loose hcapacity hlength hitems hfresh]
        intro item hitem
        rcases List.mem_append.1 hitem with hold | hself
        · exact hitems item (List.mem_of_mem_drop hold)
        · rw [List.mem_singleton.1 hself]
          exact hlast
      · change (c.insert _).2.items.map CachedPacket.packet = _
        rw [LruCache.items_insert_loose hcapacity hlength hitems hfresh, List.map_append, map_rtake,
          hpackets, rtake_rtake_succ, List.filterMap_append]
        exact (List.rtake_concat_succ _ _ _).symm

-- ---------------------------------------------------------------------------
-- The store as a cache
-- ---------------------------------------------------------------------------

/-- The bytes of the packet are stored. -/
def Holds (s : ContentStore) (packet : Packet) : Prop :=
  ∃ key e, s.get? key = some e ∧ e.packet.sameBytes packet = true

theorem holds_of_duplicate (h : s.duplicate? packet ≠ none) : s.Holds packet := by
  obtain ⟨key, hkey⟩ := Option.ne_none_iff_exists'.1 h
  exact ⟨key, Slots.get?_of_find? hkey⟩

theorem insert_of_holds (h : s.Holds packet) (flags : ContentFlags) (now : Instant) :
    s.insert packet flags now = (.unchanged, s) := by
  obtain ⟨key, e, he, hsame⟩ := h
  have hthere : s.duplicate? packet ≠ none := by
    intro hnone
    cases (Slots.find?_eq_none_iff.1 hnone key e he).symm.trans hsame
  rw [ContentStore.insert, Option.isSome_iff_ne_none.2 hthere]
  rfl

theorem insert_of_allPinned (hnew : ¬s.Holds packet) (hpos : 0 < s.limit) (hsize : s.size = s.limit)
    (hall : s.AllPinned) (flags : ContentFlags) (now : Instant) :
    s.insert packet flags now = (.full, s) := by
  have hcases := s.insert_cases packet flags now
  generalize s.insert packet flags now = out at *
  cases hcases with
  | present hthere => exact absurd (holds_of_duplicate hthere) hnew
  | unwanted hlimit => exact absurd hlimit hpos.ne'
  | refused => rfl
  | replaced _ _ hoff => cases (hall _ _ hoff.stored).symm.trans hoff.loose
  | added _ _ hroom => simp [isFull, hpos, hsize] at hroom

theorem mirrors_empty {capacity : Nat} (hpos : 0 < capacity) :
    (empty capacity).Mirrors (.empty capacity) :=
  ⟨Slots.wellFormed_empty, rfl, hpos, [], ⟨.nil, .nil⟩, rfl⟩

/-- A store with a limit is a cache that lets the packet go that was used least recently: after every
    run of uses, each later than the ones before, both hold the same packets, and both say the same
    to a packet that is to be stored. What is pinned stays, bytes that are there already change
    nothing, and neither does a packet that finds all places pinned. If no packet is pinned, touched,
    removed or stored twice, exactly the last ones remain. -/
theorem store_is_lru {capacity : Nat} (hpos : 0 < capacity) {uses : List Use}
    (hturn : (uses.filterMap Use.time?).Pairwise fun t u => t.micros < u.micros) :
    let s := (empty capacity).useAll uses
    let c := (empty capacity).follow (.empty capacity) uses
    s.SameContents c ∧
    (∀ packet flags now,
      (∀ name, (s.insert packet flags now).1.verdict = (c.insert ⟨name, packet, flags.pinned⟩).1) ∧
      (∀ key p, s.PinnedAt key p → (s.insert packet flags now).2.PinnedAt key p) ∧
      (s.Holds packet → s.insert packet flags now = (.unchanged, s)) ∧
      (¬s.Holds packet → s.size = capacity → s.AllPinned →
        s.insert packet flags now = (.full, s))) ∧
    ((∀ u ∈ uses, u.Loose) →
      (uses.filterMap Use.packet?).Pairwise (fun p q => p.sameBytes q = false) →
      ∀ packet, (∃ key e, s.get? key = some e ∧ e.packet = packet) ↔
        packet ∈ (uses.filterMap Use.packet?).rtake capacity) := by
  intro s c
  have hmirrors : s.Mirrors c := by
    apply (mirrors_empty hpos).follow _ hturn
    intro t _ key e he
    cases (Slots.get?_empty key).symm.trans he
  have hlimit : s.limit = capacity := limit_useAll _ uses
  refine ⟨hmirrors.sameContents, fun packet flags now => ⟨?_, ?_, ?_, ?_⟩, ?_⟩
  · intro name
    exact (hmirrors.insert packet flags now name).1
  · intro key p hpinned
    exact hpinned.change hmirrors.wellFormed (.insert s packet flags now)
  · intro hholds
    exact insert_of_holds hholds flags now
  · intro hnew hsize hall
    apply insert_of_allPinned hnew _ _ hall flags now
    · rw [hlimit]
      exact Int.natCast_pos.2 hpos
    · rw [hlimit, hsize]
  · intro hloose hnew packet
    obtain ⟨n, rfl⟩ := Nat.exists_eq_add_one.2 hpos
    obtain ⟨-, -, hpackets⟩ := follow_loose (empty ↑(n + 1)) hloose hnew
    rw [← hpackets]
    exact hmirrors.sameContents.mem_packets_iff.symm

/-- Of two pages the first is used again, so the second one goes for the third. -/
theorem touched_page_remains :
    let uses : List Use := [.insert (page 97) {} ⟨1⟩, .insert (page 98) {} ⟨2⟩, .touch ⟨0, 0⟩ ⟨3⟩,
      .insert (page 99) {} ⟨4⟩]
    (uses.filterMap Use.time?).Pairwise (fun t u => t.micros < u.micros) ∧
      ∀ packet, (∃ key e, ((empty 2).useAll uses).get? key = some e ∧ e.packet = packet) ↔
        packet = page 97 ∨ packet = page 99 := by
  intro uses
  have hturn : (uses.filterMap Use.time?).Pairwise fun t u => t.micros < u.micros := by decide
  refine ⟨hturn, fun packet => ?_⟩
  have hitems : ((empty 2).follow (.empty 2) uses).items.map (·.packet) = [page 97, page 99] := by
    decide
  have hsame := (store_is_lru Nat.two_pos hturn).1
  rw [← List.mem_pair, ← hitems]
  exact hsame.mem_packets_iff.symm

end ContentStore

end NameRelay
