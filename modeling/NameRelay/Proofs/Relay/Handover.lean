-- SUMMARY: To whom an interest is handed over, and that the application is shown nothing else.
import NameRelay.Proofs.Relay.Run
import NameRelay.Proofs.Relay.Tables

/-!
# Handing over

Propagating a pending interest hands it to every destination that the routes have for its name, but
not back to where it came from. `Hands P r s` says that on the way from `r` to `s` only such deeds
were done as `P` allows, and that the application was shown only what was handed over.
-/

namespace NameRelay

namespace Relay

/-! ## Destinations -/

/-- Whether an interest may go to a destination: not back to where it came from, unless that face
    reflects. -/
def mayGo (origin : FaceKey) (reflects : Bool) (d : Destination) : Bool :=
  !(d == .face origin && !reflects)

/-- The routes lead the pending interest to this destination. -/
def Leads (r : Relay) (e : PendingInterest) (d : Destination) : Prop :=
  ∃ name, e.packet.name? = some name ∧ (∃ route ∈ r.routes.covering name, route.destination = d) ∧
    mayGo e.origin ((r.face? e.origin).any (·.flags.reflects)) d = true

/-- Where the routes lead a pending interest, once for every route, in their order. -/
def nextHops (r : Relay) (e : PendingInterest) : List Destination :=
  match e.packet.name? with
  | none => []
  | some name => ((r.routes.covering name).map (·.destination)).filter
      (mayGo e.origin ((r.face? e.origin).any (·.flags.reflects)))

/-- The next hops are those that the routes lead the interest to. -/
theorem mem_nextHops {r : Relay} {e : PendingInterest} {d : Destination} :
    d ∈ r.nextHops e ↔ r.Leads e d := by
  unfold nextHops Leads
  cases hname : e.packet.name? with
  | none => simp
  | some name => simp [List.mem_filter, List.mem_map]

/-- What propagating an interest adds to the history. -/
def handovers (r : Relay) (key : InterestKey) : List Deed :=
  match r.pending.get? key with
  | none => []
  | some e => (r.nextHops e).map (.handed e.packet) ++ [.tried key r.now (r.propagate key).1]

theorem mem_handovers {r : Relay} {key : InterestKey} {p : Packet} {d : Destination} :
    .handed p d ∈ r.handovers key ↔
      ∃ e, r.pending.get? key = some e ∧ e.packet = p ∧ r.Leads e d := by
  unfold handovers
  cases hget : r.pending.get? key with
  | none => simp
  | some e =>
    simp only [List.mem_append, List.mem_map, List.mem_singleton, mem_nextHops, Deed.handed.injEq,
      reduceCtorEq, or_false, Option.some.injEq]
    constructor
    · rintro ⟨_, hleads, rfl, rfl⟩
      exact ⟨e, rfl, rfl, hleads⟩
    · rintro ⟨_, rfl, rfl, hleads⟩
      exact ⟨d, hleads, rfl, rfl⟩

/-! ## Steps that hand interests over -/

/-- The application may be shown these bytes: they are an interest that was handed over. -/
def MayShow (r : Relay) (name : Name) (bytes : Bytes) : Prop :=
  ∃ p d, .handed p d ∈ r.history ∧ p.name? = some name ∧ p.bytes = bytes

/-- On the way from `r` to `s` only such deeds were done as `P` allows. -/
structure Hands (P : Deed → Prop) (r s : Relay) : Prop where
  history : ∃ new, s.history = r.history ++ new ∧ ∀ deed ∈ new, P deed
  shown : ∀ name bytes, .tap name bytes ∈ s.host.effects →
    .tap name bytes ∈ r.host.effects ∨ s.MayShow name bytes

/-- Nothing was handed over, and all that was done was to serve contents. -/
abbrev HandsNothing : Relay → Relay → Prop :=
  Hands fun deed => ∃ content face, deed = .served content face

theorem MayShow.mono {r s : Relay} {name : Name} {bytes : Bytes} (h : r.MayShow name bytes)
    (hs : r.history <+: s.history) : s.MayShow name bytes := by
  obtain ⟨p, d, hmem, hp⟩ := h
  exact ⟨p, d, hs.subset hmem, hp⟩

namespace Hands

variable {P Q : Deed → Prop} {r s t : Relay}

theorem refl (P : Deed → Prop) (r : Relay) : Hands P r r :=
  ⟨⟨[], by simp⟩, fun _ _ h => .inl h⟩

theorem grows (h : Hands P r s) : r.history <+: s.history := by
  obtain ⟨new, hnew, -⟩ := h.history
  exact ⟨new, hnew.symm⟩

theorem trans (h : Hands P r s) (h' : Hands P s t) : Hands P r t := by
  obtain ⟨new, hnew, hold⟩ := h.history
  obtain ⟨more, hmore, hthen⟩ := h'.history
  refine ⟨⟨new ++ more, by rw [hmore, hnew, List.append_assoc], ?_⟩, ?_⟩
  · intro deed hmem
    rcases List.mem_append.1 hmem with hin | hin
    · exact hold deed hin
    · exact hthen deed hin
  · intro name bytes htap
    rcases h'.shown name bytes htap with hbefore | hshown
    · rcases h.shown name bytes hbefore with hfirst | hshown
      · exact .inl hfirst
      · exact .inr (hshown.mono h'.grows)
    · exact .inr hshown

theorem mono (h : Hands P r s) (hPQ : ∀ deed, P deed → Q deed) : Hands Q r s := by
  obtain ⟨new, hnew, hall⟩ := h.history
  exact ⟨⟨new, hnew, fun deed hmem => hPQ deed (hall deed hmem)⟩, h.shown⟩

/-- Neither the history nor the effects changed. -/
theorem of_same (hh : s.history = r.history) (he : s.host.effects = r.host.effects) :
    Hands P r s :=
  ⟨⟨[], by simp [hh]⟩, fun _ _ h => .inl (he ▸ h)⟩

/-- Transmission hands nothing over. -/
theorem of_still (h : s.still = r.still) : Hands P r s := by
  refine ⟨⟨[], by simp [history_of_still h]⟩, ?_⟩
  intro name bytes htap
  have hup : .tap name bytes ∈ s.host.effects.filter Effect.isUpcall :=
    List.mem_filter.2 ⟨htap, rfl⟩
  rw [upcalls_of_still h] at hup
  exact .inl (List.mem_filter.1 hup).1

theorem log (r : Relay) (level : LogLevel) (text : String) : Hands P r (r.log level text) :=
  of_still (log_still r level text)

theorem logAll (r : Relay) (records : List LogRecord) : Hands P r (r.logAll records) :=
  of_still (logAll_still r records)

/-- A fold hands over what its steps do. -/
theorem foldl {α : Type} {f : Relay → α → Relay} (h : ∀ r a, Hands P r (f r a)) (r : Relay)
    (as : List α) : Hands P r (as.foldl f r) :=
  List.foldlRecOn (motive := Hands P r) as f (refl P r) fun s hs a _ => hs.trans (h s a)

end Hands

/-! ## Serving hands nothing over -/

theorem hands_serve (r : Relay) (key : FaceKey) (content : Packet) :
    HandsNothing r (r.serve key content).2 := by
  unfold serve
  split
  · exact .refl _ r
  · have hnoted : HandsNothing r (r.note (.served content key)) :=
      ⟨⟨[.served content key], rfl, by simp⟩, fun _ _ h => .inl h⟩
    dsimp only
    split
    · split
      · rename_i name _
        refine hnoted.trans ⟨⟨[], by simp [emit], by simp⟩, ?_⟩
        intro wanted bytes htap
        exact .inl (by simpa [emit, Host.emit] using htap)
      · exact hnoted
    · exact hnoted.trans (.of_still (enqueue_still _ key _ _))

theorem hands_serveOnce (r : Relay) (content : Packet) (key : FaceKey) :
    HandsNothing r (r.serveOnce content key) := by
  unfold serveOnce
  split
  · exact .refl _ r
  · split
    · exact .refl _ r
    · have hserved := hands_serve
        (r.modifyFace key fun f => { f with flags := { f.flags with served := true } }) key content
      have hmarked : HandsNothing r
          (r.modifyFace key fun f => { f with flags := { f.flags with served := true } }) :=
        .of_same rfl rfl
      dsimp only
      split
      · rename_i s hs
        rw [hs] at hserved
        exact hmarked.trans hserved
      · rename_i e s hs
        rw [hs] at hserved
        exact (hmarked.trans hserved).trans (.log s _ _)

theorem hands_satisfy (r : Relay) (content : Packet) (key : InterestKey) :
    HandsNothing r (r.satisfy content key) := by
  unfold satisfy
  split
  · exact .refl _ r
  · rename_i entry _
    have hdropped : HandsNothing r { r with pending := r.pending.remove key } :=
      .of_same rfl rfl
    exact hdropped.trans (.foldl (fun r key => hands_serveOnce r content key) _ entry.faces)

theorem hands_servePending (r : Relay) (content : Packet) :
    HandsNothing r (r.servePending content).2 := by
  have hserved : HandsNothing r ((r.satisfied content).foldl (satisfy · content) r) :=
    .foldl (fun r key => hands_satisfy r content key) r _
  exact hserved.trans (.of_same rfl rfl)

theorem hands_store (r : Relay) (content : Packet) (flags : ContentFlags) :
    HandsNothing r (r.store content flags).2 := by
  have hput : ∀ contents, HandsNothing r { r with contents } := fun _ => .of_same rfl rfl
  rw [store_snd]
  exact (hput _).trans (.logAll _ _)

theorem hands_handleContent (r : Relay) (origin : FaceKey) (content : Packet) :
    HandsNothing r (r.handleContent origin content).2 := by
  have hserved := hands_servePending r content
  unfold handleContent
  split
  · exact .log r _ _
  · split
    · rename_i s hs
      rw [hs] at hserved
      exact hserved.trans (.log s _ _)
    · rename_i n s _ hs
      rw [hs] at hserved
      split
      · exact hserved.trans (hands_store s content {})
      · exact hserved

theorem hands_answerFromStore (r : Relay) (origin : FaceKey) (interest : Packet)
    (key : ContentKey) : HandsNothing r (r.answerFromStore origin interest key).2 := by
  have htouched : HandsNothing r { r with contents := r.contents.touch key r.now } :=
    .of_same rfl rfl
  unfold answerFromStore
  dsimp only
  split
  · exact htouched
  · exact (htouched.trans (.log _ _ _)).trans (hands_serve _ origin _)

/-! ## Propagating -/

theorem history_handOver (r : Relay) (interest : Packet) (name : Name) (origin : FaceKey)
    (reflects : Bool) (d : Destination) :
    (r.handOver interest name origin reflects d).2.history =
      r.history ++ if mayGo origin reflects d then [.handed interest d] else [] := by
  cases d with
  | tap => rfl
  | face key =>
    simp only [handOver]
    split
    · rename_i hback
      have hgo : mayGo origin reflects (.face key) = false := by simp [mayGo, hback]
      simp [hgo]
    · rename_i hback
      have hgo : mayGo origin reflects (.face key) = true := by
        simp only [mayGo, Bool.not_eq_true', Bool.and_eq_false_iff, beq_eq_false_iff_ne, ne_eq,
          Destination.face.injEq, Bool.not_eq_false']
        by_cases hk : key = origin
        · cases reflects
          · exact absurd ⟨hk, rfl⟩ hback
          · exact .inr rfl
        · exact .inl hk
      rw [if_pos hgo]
      split
      · rfl
      · have hqueued := history_of_still (enqueue_still (r.note (.handed interest (.face key))) key
          interest.suite interest.bytes)
        split
        · rename_i s hs
          rw [hs] at hqueued
          exact hqueued
        · rename_i s hs
          rw [hs] at hqueued
          exact hqueued

theorem history_handOverAll (r : Relay) (interest : Packet) (name : Name) (origin : FaceKey)
    (reflects : Bool) (ds : List Destination) :
    (r.handOverAll interest name origin reflects ds).2.history =
      r.history ++ (ds.filter (mayGo origin reflects)).map (.handed interest) := by
  induction ds generalizing r with
  | nil => simp [handOverAll]
  | cons d ds ih =>
    have hrest := ih (r.handOver interest name origin reflects d).2
    rw [history_handOver] at hrest
    simp only [handOverAll]
    rw [hrest]
    cases hgo : mayGo origin reflects d <;> simp [hgo]

/-- Propagating a pending interest hands it over to where the routes lead it. -/
theorem history_propagate (r : Relay) (key : InterestKey) :
    (r.propagate key).2.history = r.history ++ r.handovers key := by
  unfold handovers
  cases hget : r.pending.get? key with
  | none => simp [propagate, hget]
  | some e =>
    cases hname : e.packet.name? with
    | none => simp only [propagate, nextHops, hget, hname, note, List.map_nil, List.nil_append]
    | some name =>
      have hall := history_handOverAll { r with pending := r.attempted key } e.packet name e.origin
        ((r.face? e.origin).any (·.flags.reflects)) ((r.routes.covering name).map (·.destination))
      simp only [propagate, nextHops, hget, hname, ← List.append_assoc]
      exact congrArg (· ++ [_]) hall

/-- The application is shown an interest only when it is handed over. -/
theorem shown_handOver (r : Relay) {interest : Packet} {name : Name} (hname : interest.name? = some name)
    (origin : FaceKey) (reflects : Bool) (d : Destination) :
    Hands (fun _ => True) r (r.handOver interest name origin reflects d).2 := by
  have hhistory := history_handOver r interest name origin reflects d
  refine ⟨⟨_, hhistory, fun _ _ => trivial⟩, ?_⟩
  have hshown : ∀ (d : Destination) (n : Name) (bytes : Bytes),
      .tap n bytes ∈ r.host.effects ++ [.tap name interest.bytes] →
        .tap n bytes ∈ r.host.effects ∨
          ∃ p e, .handed p e ∈ r.history ++ [.handed interest d] ∧ p.name? = some n ∧
            p.bytes = bytes := by
    intro d n bytes htap
    rcases List.mem_append.1 htap with hold | hnew
    · exact .inl hold
    · cases List.mem_singleton.1 hnew
      exact .inr ⟨interest, d, by simp, hname, rfl⟩
  cases d with
  | tap => exact hshown .tap
  | face key =>
    simp only [handOver]
    split
    · exact fun _ _ h => .inl h
    · split
      · exact hshown (.face key)
      · have hqueued : HandsNothing (r.note (.handed interest (.face key))) _ :=
          .of_still (enqueue_still _ key interest.suite interest.bytes)
        split
        · rename_i s hs
          rw [hs] at hqueued
          exact hqueued.shown
        · rename_i s hs
          rw [hs] at hqueued
          exact (hqueued.trans (.log s _ _)).shown

theorem shown_handOverAll (r : Relay) {interest : Packet} {name : Name}
    (hname : interest.name? = some name) (origin : FaceKey) (reflects : Bool)
    (ds : List Destination) :
    Hands (fun _ => True) r (r.handOverAll interest name origin reflects ds).2 := by
  induction ds generalizing r with
  | nil => exact .refl _ r
  | cons d ds ih => exact (shown_handOver r hname origin reflects d).trans (ih _)

theorem hands_propagate (r : Relay) (key : InterestKey) :
    Hands (· ∈ r.handovers key) r (r.propagate key).2 := by
  refine ⟨⟨_, history_propagate r key, fun _ h => h⟩, ?_⟩
  unfold propagate
  split
  · exact fun _ _ h => .inl h
  · dsimp only
    split
    · exact fun _ _ h => .inl h
    · rename_i name hname
      have hnoted (s : Relay) (deed : Deed) : Hands (fun _ => True) s (s.note deed) :=
        ⟨⟨[deed], rfl, fun _ _ => trivial⟩, fun _ _ h => .inl h⟩
      exact (((shown_handOverAll _ hname _ _ _).trans (hnoted _ _)).trans (.log _ _ _)).shown

end Relay

end NameRelay
