-- SUMMARY: A round of deliveries serves each face that waits once, and drops the interests.
import NameRelay.Proofs.Relay.Recast
import NameRelay.Proofs.Relay.Sound

/-!
# Rounds of deliveries

A content may answer several pending interests, and the same face may wait with more than one of
them. A round of deliveries drops the interests one after the other and serves whoever waits with
them, and it marks the faces that it has served. In the end all that is left of it is that each face
that was not marked when it began was served, at its first turn, and that the interests are gone.

Marks carry the argument: while a round goes through the waiting faces, those that are marked were
marked before or have had their turn, so the faces still to be served are the others. That faces are
marked and interests dropped in between makes no difference to those who are served later.
-/

namespace NameRelay

namespace Relay

/-! ## Who waits -/

/-- The face waits with an interest that the content answers. -/
def WaitsFor (r : Relay) (content : Packet) (face : FaceKey) : Prop :=
  ∃ key e, r.pending.get? key = some e ∧ r.answers e.packet content = true ∧ face ∈ e.faces

instance (r : Relay) (content : Packet) (face : FaceKey) : Decidable (r.WaitsFor content face) :=
  decidable_of_iff (∃ e ∈ r.pending.entries, r.answers e.2.packet content = true ∧
    face ∈ e.2.faces) (by simp [WaitsFor, PendingTable.entries, Slots.mem_entries]; rfl)

/-- The faces that wait for a content, as often as they do, in the order in which the pending
    interests name them. -/
def askers (r : Relay) (content : Packet) : List FaceKey :=
  (r.pending.entries.filter fun e => r.answers e.2.packet content).flatMap fun e => e.2.faces

theorem mem_askers {r : Relay} {content : Packet} {face : FaceKey} :
    face ∈ r.askers content ↔ r.WaitsFor content face := by
  simp only [askers, WaitsFor, List.mem_flatMap, List.mem_filter, Prod.exists,
    PendingTable.entries, Slots.mem_entries, and_assoc]
  rfl

/-- The faces that wait for a content, each once, in the order in which they are first named. -/
def waiting (r : Relay) (content : Packet) : List FaceKey := (r.askers content).eraseDups

theorem mem_waiting {r : Relay} {content : Packet} {face : FaceKey} :
    face ∈ r.waiting content ↔ r.WaitsFor content face :=
  List.mem_eraseDups.trans mem_askers

theorem nodup_eraseDups {α : Type} [BEq α] [LawfulBEq α] :
    ∀ items : List α, items.eraseDups.Nodup
  | [] => List.nodup_nil
  | a :: items => by
    rw [List.eraseDups_cons, List.nodup_cons]
    refine ⟨fun hmem => ?_, nodup_eraseDups (items.filter fun b => !b == a)⟩
    have hother := (List.mem_filter.1 (List.mem_eraseDups.1 hmem)).2
    simp at hother
termination_by items => items.length
decreasing_by exact Nat.lt_succ_of_le (List.length_filter_le _ _)

theorem nodup_waiting (r : Relay) (content : Packet) : (r.waiting content).Nodup :=
  nodup_eraseDups _

/-! ## Serving -/

/-- Serving a face is recorded, if there is such a face. -/
theorem history_serve (r : Relay) {key : FaceKey} (content : Packet)
    (hkey : r.faces.contains key = true) :
    (r.serve key content).2.history = r.history ++ [.served content key] := by
  obtain ⟨face, hface⟩ := Slots.contains_iff.1 hkey
  have hsome : r.face? key = some face := hface
  unfold serve
  rw [hsome]
  dsimp only
  split
  · split <;> rfl
  · exact (history_of_still (enqueue_still (r.note (.served content key)) key _ _) :)

/-- Serving a face changes outboxes only. -/
theorem faces_serve (r : Relay) (key : FaceKey) (content : Packet) :
    (r.serve key content).2.faces.mapEntries Face.atRest = r.faces.mapEntries Face.atRest := by
  unfold serve
  split
  · rfl
  · dsimp only
    split
    · split <;> rfl
    · exact (faces_of_still (enqueue_still (r.note (.served content key)) key _ _) :)

/-- Serves a content to some faces, one after the other. -/
def serveEach (r : Relay) (content : Packet) (keys : List FaceKey) : Relay :=
  keys.foldl (fun r key => (r.serve key content).2) r

/-- The key stands for a face that leads somewhere. -/
def Reaches (r : Relay) (key : FaceKey) : Prop := ∃ f, r.face? key = some f ∧ f.Anchored

theorem Reaches.of_tables {r s : Relay} {key : FaceKey} (h : r.Reaches key)
    (ht : s.tables = r.tables) : s.Reaches key := by
  obtain ⟨f, hf, hanchored⟩ := h
  have hface := face?_of_tables ht key
  rw [hf, Option.map_some, Option.map_eq_some_iff] at hface
  obtain ⟨f', hf', hsame⟩ := hface
  exact ⟨f', hf', hanchored.of_unmarked hsame⟩

/-- Serving a face that leads somewhere does not fail. -/
theorem serve_ok {r : Relay} {key : FaceKey} (h : r.Reaches key) (content : Packet) :
    (r.serve key content).1 = .ok () := by
  obtain ⟨f, hf, hanchored⟩ := h
  unfold serve
  rw [hf]
  dsimp only
  split
  · split <;> rfl
  · rename_i hremote
    cases hinterface : f.interface with
    | none => exact absurd (hanchored hinterface) hremote
    | some index =>
      have hface : (r.note (.served content key)).face? key = some f := hf
      unfold enqueue
      rw [hface]
      dsimp only
      rw [hinterface]
      dsimp only
      split
      · rfl
      · split <;> rfl

/-- Everyone who waits can be served. -/
theorem Visited.reaches {r : Relay} (hr : Visited r) {content : Packet} {face : FaceKey}
    (h : r.WaitsFor content face) : r.Reaches face := by
  obtain ⟨key, e, he, -, hface⟩ := h
  obtain ⟨f, hf⟩ := Slots.contains_iff.1 (hr.consistent.known key e he face hface)
  exact ⟨f, hf, hr.sound.anchored face f hf⟩

/-- Serving some faces is recorded, one after the other. -/
theorem history_serveEach {r : Relay} {content : Packet} {keys : List FaceKey}
    (hreach : ∀ key ∈ keys, r.Reaches key) :
    (r.serveEach content keys).history = r.history ++ keys.map (.served content) := by
  induction keys generalizing r with
  | nil => simp [serveEach]
  | cons key keys ih =>
    obtain ⟨f, hf, -⟩ := hreach key List.mem_cons_self
    have hfirst := history_serve r content (Slots.contains_iff.2 ⟨f, hf⟩)
    have hlater := ih (r := (r.serve key content).2) fun k hk =>
      (hreach k (List.mem_cons_of_mem key hk)).of_tables (tables_serve r key content)
    rw [hfirst, List.append_assoc] at hlater
    exact hlater

/-! ## Marks -/

/-- Whether the face carries the mark of a round. -/
def isMarked (r : Relay) (key : FaceKey) : Bool := (r.face? key).any (·.flags.served)

theorem isMarked_of_faces {r s : Relay}
    (h : s.faces.mapEntries Face.atRest = r.faces.mapEntries Face.atRest) (key : FaceKey) :
    s.isMarked key = r.isMarked key := by
  have hget : (s.face? key).map Face.atRest = (r.face? key).map Face.atRest := by
    simpa [face?] using congrArg (·.get? key) h
  have hany : ∀ o : Option Face, o.any (·.flags.served) = (o.map Face.atRest).any (·.flags.served) :=
    fun o => by cases o <;> rfl
  rw [isMarked, isMarked, hany, hget, ← hany]

/-- The relay with the mark of a round at a face. -/
def mark (r : Relay) (key : FaceKey) : Relay :=
  r.modifyFace key fun f => { f with flags := { f.flags with served := true } }

theorem tables_mark (r : Relay) (key : FaceKey) : (r.mark key).tables = r.tables :=
  tables_modifyFace r key _ fun _ _ => rfl

theorem isMarked_mark {r : Relay} {key : FaceKey} {face : Face} (hface : r.face? key = some face)
    (k : FaceKey) : (r.mark key).isMarked k = true ↔ k = key ∨ r.isMarked k = true := by
  have hface' : (r.mark key).face? k = if k = key then
      (r.face? k).map fun f => { f with flags := { f.flags with served := true } }
      else r.face? k := Slots.get?_modify r.faces key _ k
  by_cases hk : k = key
  · subst hk
    simp [isMarked, hface', hface]
  · simp [isMarked, hface', hk]

/-- No face carries the mark of a round. -/
def Unmarked (r : Relay) : Prop := ∀ key, r.isMarked key = false

theorem unmarked_iff {r : Relay} :
    r.Unmarked ↔ ∀ key f, r.face? key = some f → f.flags.served = false := by
  refine forall_congr' fun key => ?_
  rw [isMarked]
  cases r.face? key with
  | none => simp
  | some f => simp

instance (r : Relay) : Decidable r.Unmarked :=
  decidable_of_iff (∀ e ∈ r.faces.entries, e.2.flags.served = false) (by
    simp only [unmarked_iff, Prod.forall, Slots.mem_entries]
    rfl)

/-- The end of a round takes every mark away. -/
theorem endRound_mark (r : Relay) (key : FaceKey) : (r.mark key).endRound = r.endRound := by
  have hfaces : (r.mark key).faces.mapEntries
      (fun f => { f with flags := { f.flags with served := false } }) =
        r.faces.mapEntries fun f => { f with flags := { f.flags with served := false } } :=
    Slots.mapEntries_modify fun _ _ => rfl
  exact (congrArg (fun faces => ({ r with faces } : Relay)) hfaces :)

theorem unmarked_endRound (r : Relay) : r.endRound.Unmarked := by
  rw [unmarked_iff]
  intro key f hf
  have hget := (Slots.get?_mapEntries r.faces _ key).symm.trans hf
  obtain ⟨old, -, rfl⟩ := Option.map_eq_some_iff.1 hget
  rfl

theorem endRound_of_unmarked {r : Relay} (h : r.Unmarked) : r.endRound = r := by
  have hfaces : r.faces.mapEntries
      (fun f => { f with flags := { f.flags with served := false } }) = r.faces := by
    refine Slots.mapEntries_eq_self fun key f hf => ?_
    rw [← unmarked_iff.1 h key f hf]
  exact (congrArg (fun faces => ({ r with faces } : Relay)) hfaces :)

/-! ## A round without its marks -/

section

variable {s : Relay} {content : Packet} {key : FaceKey}

theorem endRound_eq (s : Relay) :
    s.endRound = s.recast (fun flags => { flags with served := false }) s.pending := rfl

theorem endRound_serve (s : Relay) (content : Packet) (key : FaceKey) :
    (s.serve key content).2.endRound = (s.endRound.serve key content).2 := by
  rw [endRound_eq, endRound_eq, serve_recast, pending_of_tables (tables_serve s key content)]

theorem serveOnce_of_marked (h : s.isMarked key = true) : s.serveOnce content key = s := by
  unfold serveOnce
  split
  · rfl
  · rename_i face hface
    have hserved : face.flags.served = true := by simpa [isMarked, hface] using h
    rw [if_pos hserved]

/-- What a face that is not marked gets, and that it is marked then. -/
theorem serveOnce_of_unmarked (h : s.isMarked key = false) (hreach : s.Reaches key)
    (content : Packet) :
    (s.serveOnce content key).endRound = (s.endRound.serve key content).2 ∧
      ∀ k, (s.serveOnce content key).isMarked k = true ↔ k = key ∨ s.isMarked k = true := by
  have hok := serve_ok (hreach.of_tables (tables_mark s key)) content
  obtain ⟨face, hface, -⟩ := hreach
  have hserved : face.flags.served = false := by simpa [isMarked, hface] using h
  have honce : s.serveOnce content key = ((s.mark key).serve key content).2 := by
    unfold serveOnce
    rw [hface]
    dsimp only
    rw [hserved, if_neg Bool.false_ne_true]
    split
    · rename_i t ht
      exact (congrArg Prod.snd ht).symm
    · rename_i e t ht
      cases hok.symm.trans (congrArg Prod.fst ht)
  refine ⟨?_, fun k => ?_⟩
  · rw [honce, endRound_serve, endRound_mark]
  · rw [honce, isMarked_of_faces (faces_serve (s.mark key) key content) k]
    exact isMarked_mark hface k

/-- Without its marks, a round through some faces is serving those that were not marked, each
    once. -/
theorem endRound_foldl_serveOnce {keys : List FaceKey} (hreach : ∀ key ∈ keys, s.Reaches key)
    (content : Packet) :
    (keys.foldl (serveOnce · content) s).endRound =
      s.endRound.serveEach content (keys.filter fun key => !s.isMarked key).eraseDups := by
  induction keys generalizing s with
  | nil => rfl
  | cons key keys ih =>
    have hrest : ∀ k ∈ keys, (s.serveOnce content key).Reaches k := fun k hk =>
      (hreach k (List.mem_cons_of_mem key hk)).of_tables (tables_serveOnce s content key)
    rw [List.foldl_cons, ih hrest]
    cases hmark : s.isMarked key with
    | true => rw [serveOnce_of_marked hmark, List.filter_cons_of_neg (by simp [hmark])]
    | false =>
      obtain ⟨hserved, hmarks⟩ :=
        serveOnce_of_unmarked hmark (hreach key List.mem_cons_self) content
      have hlater : keys.filter (fun k => !(s.serveOnce content key).isMarked k) =
          (keys.filter fun k => !s.isMarked k).filter fun k => !k == key := by
        rw [List.filter_filter]
        refine List.filter_congr fun k _ => ?_
        rw [Bool.eq_iff_iff]
        simp [← Bool.not_eq_true, hmarks k]
      rw [hserved, hlater, List.filter_cons_of_pos (by simp [hmark]), List.eraseDups_cons]
      rfl

end

/-! ## A round without its interests -/

theorem recast_id (s : Relay) (p : PendingTable) : s.recast id p = { s with pending := p } := by
  have hfaces : s.faces.mapEntries (Face.recast id) = s.faces :=
    Slots.mapEntries_eq_self fun _ _ _ => rfl
  rw [recast, hfaces]

/-- Serving a face in a round does not look at pending interests. -/
theorem serveOnce_withPending (s : Relay) (p : PendingTable) (content : Packet) (key : FaceKey) :
    ({ s with pending := p } : Relay).serveOnce content key =
      { s.serveOnce content key with pending := p } := by
  have hserve : ∀ t : Relay, ({ t with pending := p } : Relay).serve key content =
      ((t.serve key content).1, { (t.serve key content).2 with pending := p }) := by
    intro t
    rw [← recast_id, serve_recast, recast_id]
  have hface : ({ s with pending := p } : Relay).face? key = s.face? key := rfl
  unfold serveOnce
  rw [hface]
  split
  · rfl
  · split
    · rfl
    · have hmarked := hserve (s.mark key)
      dsimp only
      rw [← mark, ← mark, show ({ s with pending := p } : Relay).mark key =
        { s.mark key with pending := p } from rfl, hmarked]
      cases (s.mark key).serve key content with
      | mk outcome t => cases outcome <;> rfl

theorem foldl_serveOnce_withPending (s : Relay) (p : PendingTable) (content : Packet)
    (keys : List FaceKey) :
    keys.foldl (serveOnce · content) ({ s with pending := p } : Relay) =
      { keys.foldl (serveOnce · content) s with pending := p } := by
  induction keys generalizing s with
  | nil => rfl
  | cons key keys ih =>
    rw [List.foldl_cons, List.foldl_cons, serveOnce_withPending]
    exact ih (s.serveOnce content key)

/-- Satisfying interests one after the other is going through all their waiters, and dropping
    them. -/
theorem foldl_satisfy {s : Relay} {entries : List (InterestKey × PendingInterest)}
    (hkeys : (entries.map (·.1)).Nodup)
    (hentries : ∀ e ∈ entries, s.pending.get? e.1 = some e.2) (content : Packet) :
    (entries.map (·.1)).foldl (satisfy · content) s =
      { (entries.flatMap (·.2.faces)).foldl (serveOnce · content) s with
        pending := s.pending.removeEach (entries.map (·.1)) } := by
  induction entries generalizing s with
  | nil => rfl
  | cons e entries ih =>
    obtain ⟨hnew, hkeys'⟩ := List.nodup_cons.1 hkeys
    have hfirst : s.satisfy content e.1 =
        { e.2.faces.foldl (serveOnce · content) s with pending := s.pending.remove e.1 } := by
      unfold satisfy
      rw [hentries e List.mem_cons_self]
      exact foldl_serveOnce_withPending s _ content _
    have hrest : ∀ d ∈ entries, (s.satisfy content e.1).pending.get? d.1 = some d.2 := by
      intro d hd
      have hne : d.1 ≠ e.1 := by
        intro heq
        have hmem : d.1 ∈ entries.map (·.1) := List.mem_map_of_mem hd
        rw [heq] at hmem
        exact hnew hmem
      rw [hfirst]
      refine (Slots.get?_remove s.pending.slots e.1 d.1).trans ?_
      rw [if_neg hne]
      exact hentries d (List.mem_cons_of_mem e hd)
    have hlater := ih hkeys' hrest
    rw [List.map_cons, List.foldl_cons, hlater, hfirst, foldl_serveOnce_withPending,
      List.flatMap_cons, List.foldl_append]
    rfl

/-! ## A round as a whole -/

/-- A round of deliveries serves each face that waits and is not marked once, takes the marks away,
    and drops the interests that the content answers. -/
theorem servePending_eq {r : Relay} (hr : Visited r) (content : Packet) :
    (r.servePending content).2 =
      { r.endRound.serveEach content
          ((r.askers content).filter fun key => !r.isMarked key).eraseDups with
        pending := r.pending.removeEach (r.satisfied content) } := by
  let answered := r.pending.entries.filter fun e => r.answers e.2.packet content
  have hkeys : (answered.map (·.1)).Nodup :=
    (Slots.nodup_keys r.pending.slots).sublist (List.filter_sublist.map _)
  have hentries : ∀ e ∈ answered, r.pending.get? e.1 = some e.2 := fun e he =>
    Slots.mem_entries.1 (List.mem_filter.1 he).1
  have hreach : ∀ key ∈ r.askers content, r.Reaches key := fun key hkey =>
    hr.reaches (mem_askers.1 hkey)
  have hround := endRound_foldl_serveOnce hreach content
  calc (r.servePending content).2
      = ((answered.map (·.1)).foldl (satisfy · content) r).endRound := rfl
    _ = { ((r.askers content).foldl (serveOnce · content) r).endRound with
          pending := r.pending.removeEach (r.satisfied content) } := by
        rw [foldl_satisfy hkeys hentries]
        rfl
    _ = _ := by rw [hround]

theorem unmarked_servePending (r : Relay) (content : Packet) :
    (r.servePending content).2.Unmarked := unmarked_endRound _

/-- If no face is marked when the round begins, each face that waits is served. -/
theorem servePending_of_unmarked {r : Relay} (hr : Visited r) (hmarks : r.Unmarked)
    (content : Packet) :
    (r.servePending content).2 = { r.serveEach content (r.waiting content) with
      pending := r.pending.removeEach (r.satisfied content) } := by
  have hall : (r.askers content).filter (fun key => !r.isMarked key) = r.askers content :=
    List.filter_eq_self.2 fun key _ => by simp [hmarks key]
  rw [servePending_eq hr, hall, endRound_of_unmarked hmarks]
  rfl

end Relay

end NameRelay
