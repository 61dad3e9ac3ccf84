-- SUMMARY: What goes into the queue of a face or a ring comes out of it, in order.
import NameRelay.Proofs.Relay.Steps

/-!
# Flow

Packets go through the queue of their face, and units through the ring of its interface. Along every
run of steps what came out of either, followed by what is in it, is what was in it, followed by what
went in. Nothing is lost on the way, and nothing overtakes; only with the face itself all goes.
-/

namespace NameRelay

namespace Relay

/-! ## Books along steps -/

/-- The lines are in order, and what each face has in flight is what stands in the ring. A face may
    have packets waiting that could go. -/
structure Accounted (r : Relay) : Prop extends Lines r where
  counted : ∀ key, r.Counted key

theorem Balanced.accounted {r : Relay} (hr : r.Balanced) : r.Accounted where
  toLines := hr.toLines
  counted key := (hr.settled key).counted

section

variable {r s : Relay} {key : FaceKey} {f : Face} {index : Nat} {sign : Sign}

theorem withdrawn_removeFace (hf : r.face? key = some f) :
    (r.removeFace key).2.faces = (r.faces.remove key).2 ∧
      (r.removeFace key).2.interfaces = (withdraw key r.interfaces).2 := by
  rw [face?, ← Slots.remove_fst] at hf
  unfold removeFace
  split
  · rename_i hnone
    rw [hnone] at hf
    cases hf
  · rename_i hremoved
    exact ⟨congrArg (·.2) hremoved.symm, rfl⟩

/-- What a face puts in the ring when it takes a packet off its queue. -/
theorem Accounted.loads (hr : r.Accounted) (hf : r.face? key = some f)
    (hindex : f.interface = some index) {i : Interface} (hi : r.interfaces[index]? = some i)
    (hidle : f.inFlight = none) {p : QueuedPacket} {fragments : Option (List Bytes)}
    {fragmenter : Fragmenter}
    (hcut : f.fragmenter.fragment p.suite p.bytes = (.ok fragments, fragmenter))
    (rest : List QueuedPacket) :
    (f.launch fragmenter rest p.bytes (f.units key p.bytes fragments) i.queue).Loads key f
      (r.unitsOf key index) (r.units index)
      ((f.units key p.bytes fragments).take (maxQueueLength - (r.units index).length)) := by
  have hholds := hr.rings i (List.mem_of_getElem? hi)
  have hmtu := f.fragmenter.mtu_fragment p.suite p.bytes
  rw [hcut] at hmtu
  rw [(Face.counts_of_none hidle).1 (hr.counted key f index hf hindex), units_of_interface hi]
  exact Face.loads_launch hidle hholds hmtu rest p.bytes fun unit => Face.own_units

/-- Each step other than that faces or interfaces come or go moves the line of one face. -/
theorem Accounted.onLine_step (hr : r.Accounted) (h : Step r sign s) (hkey : sign.face? = some key) :
    OnLine key r s ∧ s.Counted key := by
  cases h with
  | added | removed | opened => cases hkey
  | @queued k f index hf hindex p =>
    cases hkey
    refine ⟨.modifyFace r fun _ _ => rfl, fun g j hg hj => ?_⟩
    rw [face?_modifyFace_self, hf] at hg
    cases hg
    exact (hr.counted key f j hf hj).congr rfl
  | @uncut k f index p rest e fragmenter hf hindex hidle hqueue hcut =>
    cases hkey
    have hmtu := f.fragmenter.mtu_fragment p.suite p.bytes
    rw [hcut] at hmtu
    refine ⟨.modifyFace r fun g hg => ?_, fun g j hg hj => ?_⟩
    · cases hf.symm.trans hg
      exact Face.line_eq_iff.2 ⟨rfl, rfl, hmtu⟩
    · rw [face?_modifyFace_self, hf] at hg
      cases hg
      exact (hr.counted key f j hf hj).congr rfl
  | released hf hindex hi hidle hqueue hcut =>
    cases hkey
    have hloads := hr.loads hf hindex hi hidle hcut
    exact ⟨onLine_released hf hindex hi (hloads _), counted_released hf hindex hi (hloads _)⟩
  | @sent k f j i unit queue hf hi hpop hunit =>
    cases hunit.symm.trans hkey
    obtain ⟨-, -, hline, hcounted⟩ := sent_line hr.toLines (hr.counted key) hf hi hpop hunit
    exact ⟨hline, hcounted⟩

end

namespace Accounted

variable {r s : Relay} {key : FaceKey} {sign : Sign} {trace : List Sign}

theorem of_queues (hr : r.Accounted) (h : s.queues = r.queues) : s.Accounted where
  toLines := hr.toLines.of_queues h
  counted := AllBooks.of_queues (P := Face.Counts) hr.counted
    (fun hcounts hsame => hcounts.congr (congrArg Face.inFlight hsame.symm :)) h

theorem onLine (hr : r.Accounted) (h : OnLine key r s) (hs : s.Counted key) : s.Accounted where
  toLines := hr.toLines.onLine h
  counted k := by
    by_cases hk : k = key
    · exact hk ▸ hs
    · intro f index hf hindex
      rw [h.unitsOf hk]
      exact hr.counted k f index ((h.others k hk).symm.trans hf) hindex

/-- Every step keeps the books. -/
theorem step (hr : r.Accounted) (h : Step r sign s) : s.Accounted := by
  cases hkey : sign.face? with
  | some key =>
    obtain ⟨hline, hcounted⟩ := hr.onLine_step h hkey
    exact hr.onLine hline hcounted
  | none =>
    cases h with
    | added hflight hqueue hhome =>
      exact ⟨hr.toLines.insertFace hhome, AllBooks.insertFace (P := Face.Counts) hr.counted
        hr.toLines ((Face.counts_of_none hflight).2 rfl)⟩
    | removed hf =>
      obtain ⟨hfaces, hinterfaces⟩ := withdrawn_removeFace hf
      exact ⟨hr.toLines.withdrawn hfaces hinterfaces,
        AllBooks.withdrawn (P := Face.Counts) hr.counted hr.toLines hfaces hinterfaces⟩
    | opened address mtu flags =>
      exact ⟨hr.toLines.insertInterface address mtu flags,
        AllBooks.insertInterface (P := Face.Counts) hr.counted address mtu flags⟩
    | queued | uncut | released => cases hkey
    | sent _ _ _ hunit => cases hunit.symm.trans hkey

theorem steps (hr : r.Accounted) (h : Steps r trace s) : s.Accounted := by
  induction h with
  | refl => exact hr
  | quiet _ hqueues _ ih => exact ih.of_queues hqueues
  | tail _ hstep ih => exact ih.step hstep

end Accounted

/-! ## Traces of one face -/

/-- The unit of this face that the sign tells to have been given away. -/
def Sign.sent? (key : FaceKey) : Sign → Option Bytes
  | sent _ unit => if unit.face = some key then some unit.bytes else none
  | _ => none

/-- What came of a packet that this face took off its queue. -/
def Sign.train? (key : FaceKey) : Sign → Option Train
  | released k train => if k = key then some train else none
  | _ => none

/-- The packet that was queued at this face. -/
def Sign.queued? (key : FaceKey) : Sign → Option QueuedPacket
  | queued k p => if k = key then some p else none
  | _ => none

theorem Sign.none_of_foreign {sign : Sign} {key : FaceKey} (h : sign.face? ≠ some key) :
    sign.sent? key = none ∧ sign.train? key = none ∧ sign.taken? key = none ∧
      sign.queued? key = none := by
  cases sign with
  | added | removed | opened => exact ⟨rfl, rfl, rfl, rfl⟩
  | sent index unit => exact ⟨if_neg h, rfl, rfl, rfl⟩
  | queued k p => exact ⟨rfl, rfl, rfl, if_neg fun hk => h (congrArg some hk)⟩
  | uncut k p => exact ⟨rfl, rfl, if_neg fun hk => h (congrArg some hk), rfl⟩
  | released k train =>
    have hk : k ≠ key := fun hk => h (congrArg some hk)
    exact ⟨rfl, if_neg hk, if_neg hk, rfl⟩

theorem Sign.queued?_of_outgoing {sign : Sign} (h : sign.isOutgoing = true) (key : FaceKey) :
    sign.queued? key = none := by
  cases sign with
  | uncut | released | sent => rfl
  | added | removed | opened | queued => cases h

/-- The units of the face that wait in the ring of an interface. -/
def own (r : Relay) (key : FaceKey) (index : Nat) : List Bytes :=
  ((r.units index).filter (·.face == some key)).map (·.bytes)

/-- The packets that wait at a face. -/
def queueOf (r : Relay) (key : FaceKey) : List QueuedPacket :=
  ((r.face? key).map (·.queue)).getD []

/-- The face leads to this interface. -/
def At (r : Relay) (key : FaceKey) (index : Nat) : Prop :=
  ∃ f, r.face? key = some f ∧ f.interface = some index

/-- What came out of the ring, and then out of the queue, followed by what is in it, is what was in it
    followed by what went in. -/
structure Flow (key : FaceKey) (index : Nat) (r : Relay) (trace : List Sign) (s : Relay) : Prop where
  stays : s.At key index
  ring : trace.filterMap (Sign.sent? key) ++ s.own key index =
    r.own key index ++ (trace.filterMap (Sign.train? key)).flatMap Train.loaded
  queue : trace.filterMap (Sign.taken? key) ++ s.queueOf key =
    r.queueOf key ++ trace.filterMap (Sign.queued? key)

/-- A step that is not about a face leaves it as it is. -/
theorem face?_of_foreign {r s : Relay} {key : FaceKey} {f : Face} {sign : Sign} (hr : r.Accounted)
    (h : Step r sign s) (hf : r.face? key = some f) (hforeign : sign.face? ≠ some key)
    (hkept : sign ≠ .removed key) : s.face? key = some f := by
  cases hsign : sign.face? with
  | some k =>
    rw [hsign, ne_eq, Option.some.injEq] at hforeign
    exact ((hr.onLine_step h hsign).1.others key (Ne.symm hforeign)).trans hf
  | none =>
    cases h with
    | added => exact Slots.get?_insert_of_get? hr.faces _ hf
    | @removed k _ hg =>
      rw [face?, (withdrawn_removeFace hg).1, Slots.get?_remove]
      exact (if_neg fun hk => hkept (congrArg Sign.removed hk.symm)).trans hf
    | opened => exact hf
    | queued | uncut | released => cases hsign
    | sent _ _ _ hunit => cases hunit.symm.trans hsign

theorem own_of_foreign {r s : Relay} {k key : FaceKey} {index : Nat}
    (h : (s.units index).filter (·.face != some k) = (r.units index).filter (·.face != some k))
    (hk : key ≠ k) : s.own key index = r.own key index := by
  rw [own, ← filter_foreign hk, h, filter_foreign hk, ← own]

namespace Flow

variable {key : FaceKey} {index : Nat} {r s t : Relay} {trace more : List Sign} {sign : Sign}

theorem refl (hat : r.At key index) : Flow key index r [] r :=
  ⟨hat, (List.append_nil _).symm, (List.append_nil _).symm⟩

theorem trans (h : Flow key index r trace s) (h' : Flow key index s more t) :
    Flow key index r (trace ++ more) t where
  stays := h'.stays
  ring := by
    rw [List.filterMap_append, List.filterMap_append, List.flatMap_append, List.append_assoc,
      h'.ring, ← List.append_assoc, h.ring, List.append_assoc]
  queue := by
    rw [List.filterMap_append, List.filterMap_append, List.append_assoc, h'.queue,
      ← List.append_assoc, h.queue, List.append_assoc]

/-- What is not about the outbox of the face leaves it alone. -/
theorem of_same (hat : s.At key index) (hring : s.own key index = r.own key index)
    (hqueue : s.queueOf key = r.queueOf key) (hforeign : sign.face? ≠ some key) :
    Flow key index r [sign] s := by
  obtain ⟨hsent, htrain, htaken, hqueued⟩ := Sign.none_of_foreign hforeign
  refine ⟨hat, ?_, ?_⟩
  · simp [hsent, htrain, hring]
  · simp [htaken, hqueued, hqueue]

theorem of_queues (hat : r.At key index) (h : s.queues = r.queues) : Flow key index r [] s := by
  obtain ⟨f, hf, hindex⟩ := hat
  obtain ⟨g, hg, hsame⟩ := face?_of_queues h.symm hf
  refine ⟨⟨g, hg, (congrArg Face.interface hsame :).trans hindex⟩, ?_, ?_⟩
  · simp [own, units_of_queues h]
  · have hqueue : g.queue = f.queue := (congrArg Face.queue hsame :)
    simp [queueOf, hf, hg, hqueue]

/-- So does what is about the outbox of another face. -/
theorem of_onLine {k : FaceKey} (hat : r.At key index) (h : OnLine k r s) (hk : key ≠ k)
    (hsign : sign.face? = some k) : Flow key index r [sign] s := by
  obtain ⟨f, hf, hindex⟩ := hat
  have hface := h.others key hk
  refine of_same ⟨f, hface.trans hf, hindex⟩ (own_of_foreign (h.foreign index) hk) ?_ ?_
  · rw [queueOf, queueOf, hface]
  · rw [hsign]
    exact fun hsame => hk (Option.some.inj hsame).symm

/-- What is about the outbox of the face moves packets and units on. -/
theorem of_step (hr : r.Accounted) (hat : r.At key index) (h : Step r sign s)
    (hsign : sign.face? = some key) : Flow key index r [sign] s := by
  obtain ⟨g, hg, hhere⟩ := hat
  cases h with
  | added | removed | opened => cases hsign
  | @queued k f j hf hindex p =>
    cases hsign
    cases hf.symm.trans hg
    have hface : (r.modifyFace key fun f => { f with queue := f.queue ++ [p] }).face? key =
        some { g with queue := g.queue ++ [p] } := by
      rw [face?_modifyFace_self, hf]
      rfl
    refine ⟨⟨_, hface, hhere⟩, ?_, ?_⟩
    · exact (List.append_nil _).symm
    · simp [queueOf, hface, hf, Sign.taken?, Sign.queued?]
  | @uncut k f j p rest e fragmenter hf hindex hidle hqueue hcut =>
    cases hsign
    cases hf.symm.trans hg
    have hface : (r.modifyFace key fun _ => { g with queue := rest, fragmenter }).face? key =
        some { g with queue := rest, fragmenter } := by
      rw [face?_modifyFace_self, hf]
      rfl
    refine ⟨⟨_, hface, hhere⟩, ?_, ?_⟩
    · exact (List.append_nil _).symm
    · simp [queueOf, hface, hf, hqueue, Sign.taken?, Sign.queued?]
  | @released k f j i p rest fragments fragmenter hf hindex hi hidle hqueue hcut =>
    cases hsign
    cases hf.symm.trans hg
    cases hindex.symm.trans hhere
    have hloads := hr.loads hf hindex hi hidle hcut rest
    have hunits := units_released hi hloads index
    rw [if_pos rfl] at hunits
    have hface : (r.released key index i (g.launch fragmenter rest p.bytes
        (g.units key p.bytes fragments) i.queue)).face? key = some (g.launch fragmenter rest p.bytes
          (g.units key p.bytes fragments) i.queue).face := (face?_released hf key).trans (if_pos rfl)
    refine ⟨⟨_, hface, hhere⟩, ?_, ?_⟩
    · have hadded := List.filter_eq_self.2 fun unit hunit => beq_iff_eq.2 (hloads.own unit hunit).1
      have hbytes : (g.units key p.bytes fragments).map (·.bytes) = fragments.getD [p.bytes] :=
        List.map_map.trans (List.map_id _)
      simp only [own, hunits, List.filter_append, hadded, List.map_append, List.map_take, hbytes]
      simp [Sign.sent?, Sign.train?, Train.loaded]
    · have hrest : (g.launch fragmenter rest p.bytes (g.units key p.bytes fragments)
          i.queue).face.queue = rest := rfl
      simp [queueOf, hface, hf, hqueue, hrest, Sign.taken?, Sign.queued?]
  | @sent k f j i unit queue hf hi hpop hunit =>
    cases hunit.symm.trans hsign
    cases hf.symm.trans hg
    obtain ⟨hindex, hunits, -, -⟩ := sent_line hr.toLines (hr.counted key) hf hi hpop hunit
    cases hindex.symm.trans hhere
    have hface := face?_sent hf index i queue unit
    refine ⟨⟨_, hface, ?_⟩, ?_, ?_⟩
    · exact (Face.line_eq_iff.1 g.line_settle).1.trans hindex
    · simp [own, hunits, hunit, Sign.sent?, Sign.train?]
    · simp only [queueOf, hface, hf, Option.map_some, Option.getD_some, Face.settle_queue]
      exact (List.append_nil _).symm

/-- A step moves packets and units of the face on, or leaves them alone, unless the face goes. -/
theorem single (hr : r.Accounted) (hat : r.At key index) (h : Step r sign s)
    (hkept : sign ≠ .removed key) : Flow key index r [sign] s := by
  cases hsign : sign.face? with
  | some k =>
    by_cases hk : key = k
    · exact of_step hr hat h (hk ▸ hsign)
    · exact of_onLine hat (hr.onLine_step h hsign).1 hk hsign
  | none =>
    have hforeign : sign.face? ≠ some key := by
      rw [hsign]
      exact nofun
    obtain ⟨f, hf, hindex⟩ := hat
    have hface := face?_of_foreign hr h hf hforeign hkept
    refine of_same ⟨f, hface, hindex⟩ ?_ ?_ hforeign
    · cases h with
      | added => rfl
      | @removed k g hg =>
        have hk : key ≠ k := fun hk => hkept (congrArg Sign.removed hk.symm)
        refine own_of_foreign ?_ hk
        rw [units_withdraw hr.toLines k (withdrawn_removeFace hg).2, List.filter_filter]
        simp only [Bool.and_self]
      | opened => rw [own, units_insertInterface, own]
      | queued | uncut | released => cases hsign
      | sent _ _ _ hunit => cases hunit.symm.trans hsign
    · rw [queueOf, queueOf, hface, hf]

/-- Nothing is lost on the way, as long as the face is there. -/
theorem of_steps (hr : r.Accounted) (hat : r.At key index) (h : Steps r trace s)
    (hkept : .removed key ∉ trace) : Flow key index r trace s := by
  induction h with
  | refl => exact refl hat
  | quiet h hqueues _ ih =>
    have hflow := (ih hkept).trans (of_queues (ih hkept).stays hqueues)
    rwa [List.append_nil] at hflow
  | tail h hstep ih =>
    rw [List.mem_append, not_or, List.mem_singleton] at hkept
    have hflow := ih hkept.1
    exact hflow.trans (single (hr.steps h) hflow.stays hstep (Ne.symm hkept.2))

end Flow

/-! ## What is transmitted -/

theorem sends_step {r s : Relay} {sign : Sign} (h : Step r sign s) :
    s.sends = r.sends ++ sign.effect?.toList := by
  cases h with
  | added | opened | queued | uncut | released => exact (List.append_nil _).symm
  | @removed k f hf =>
    refine Eq.trans ?_ (List.append_nil _).symm
    unfold removeFace
    split
    · rfl
    · exact sends_logAll _ [_]
  | sent => exact List.filter_append ..

/-- What is transmitted on the way are the units that are given away. -/
theorem sends_steps {r s : Relay} {trace : List Sign} (h : Steps r trace s) :
    s.sends = r.sends ++ trace.filterMap Sign.effect? := by
  induction h with
  | refl => exact (List.append_nil _).symm
  | quiet _ _ hsends ih => exact hsends.trans ih
  | @tail _ _ trace sign _ hstep ih =>
    rw [sends_step hstep, ih, List.filterMap_append, List.append_assoc]
    cases hsign : sign.effect? <;> simp [hsign]

end Relay

end NameRelay
