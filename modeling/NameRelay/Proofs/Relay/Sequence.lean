-- SUMMARY: Bytes that come in one buffer are handled like the same bytes in two.
import NameRelay.Proofs.Relay.Datagram
import NameRelay.Proofs.Relay.Moves

/-!
# Buffers in sequence

The packets of a buffer are handled one after the other, so it should make no difference whether they
come in one buffer or in two. Two things have to be seen for that. Handling packets never changes
who is a face or when it was heard of, so the second buffer comes from the same face. And the records
that end a reading are all that tells where in a buffer something stood.
-/

namespace NameRelay

/-! ## Faces as the addresses that were heard of -/

/-- The face without what it has collected, and without its outbox and mark. -/
def Face.bare (f : Face) : Face := { f.unmarked with reassembler := .idle }

namespace Relay

/-- The standing relay, with bare faces. -/
def outline (r : Relay) : Relay := { r.standing with faces := r.faces.mapEntries Face.bare }

theorem outline_of_standing {r s : Relay} (h : s.standing = r.standing) : s.outline = r.outline := by
  have hfaces := congrArg (·.mapEntries fun f => { f with reassembler := .idle })
    (faces_of_standing h)
  simp only [Slots.mapEntries_mapEntries] at hfaces
  exact congrArg₂ (fun (t : Relay) faces => { t with faces }) h hfaces

theorem outline_logAll (r : Relay) (records : List LogRecord) :
    (r.logAll records).outline = r.outline := outline_of_standing (standing_logAll r records)

/-- A fragment changes what its face has collected, and no more. -/
theorem outline_collect (r : Relay) (key : FaceKey) (packet : Packet) :
    (r.collect key packet).2.outline = r.outline := by
  unfold collect
  split
  · rfl
  · rename_i face hface
    refine (outline_logAll _ _).trans ?_
    have hfaces : (r.faces.modify key fun f =>
        { f with reassembler := (face.reassembler.accept packet).next }).mapEntries Face.bare =
          r.faces.mapEntries Face.bare := Slots.mapEntries_modify fun _ _ => rfl
    exact (congrArg (fun faces => { r.standing with faces }) hfaces :)

theorem acrossPackets_outline : AcrossPackets fun r s => s.outline = r.outline where
  refl _ := rfl
  trans h h' := h'.trans h
  record r record := outline_logAll r [record]
  interest r key interest := outline_of_standing (standing_handleInterest r key interest)
  content r key content := outline_of_standing (standing_handleContent r key content)
  collect := outline_collect

/-! ## The face of a sender -/

section

variable {r s t : Relay} {index : Nat} {source : FaceAddress} {key : FaceKey}

theorem faces_of_outline (h : t.outline = s.outline) :
    t.faces.mapEntries Face.bare = s.faces.mapEntries Face.bare :=
  (congrArg Relay.faces h :)

theorem now_of_outline (h : t.outline = s.outline) : t.now = s.now := (congrArg Relay.now h :)

/-- Looking an address up sees interfaces and addresses only. -/
theorem findFace?_of_mapEntries (g : Face → Face) (hinterface : ∀ f, (g f).interface = f.interface)
    (haddress : ∀ f, (g f).address = f.address)
    (h : t.faces.mapEntries g = s.faces.mapEntries g) :
    t.findFace? index source = s.findFace? index source := by
  have hseen (u : Relay) : u.findFace? index source =
      (u.faces.mapEntries g).find? fun f => f.interface == some index && f.address == source := by
    rw [Slots.find?_mapEntries]
    simp only [hinterface, haddress]
    rfl
  rw [hseen, hseen, h]

/-- What comes of looking for the face of an address: it is there, or it is made, or there is no such
    interface. -/
inductive Met (r : Relay) (index : Nat) (address : FaceAddress) :
    Except RelayError FaceKey × Relay → Prop where
  | known {key : FaceKey} (h : r.findFace? index address = some key) :
      Met r index address (.ok key, r)
  | new (h : r.findFace? index address = none) (flags : FaceFlags) (mtu : Nat) (record : LogRecord) :
      Met r index address ((.ok (r.faces.insert (.fresh (some index) address flags mtu r.now)).1),
        { r.emit (.log record) with
          faces := (r.faces.insert (.fresh (some index) address flags mtu r.now)).2 })
  | unreachable (e : RelayError) : Met r index address (.error e, r)

theorem faceFor_cases (r : Relay) (index : Nat) (address : FaceAddress) :
    Met r index address (r.faceFor index address) := by
  unfold faceFor
  cases hfound : r.findFace? index address with
  | some key => exact .known hfound
  | none =>
    dsimp only
    unfold addFace
    split
    · exact .unreachable _
    · rw [hfound]
      exact .new hfound _ _ _

/-- A sender is the face of its address, and was heard of now. -/
theorem ok_of_sender (h : r.sender index source = (.ok key, s)) :
    ∃ t, Met r index source (.ok key, t) ∧
      s = t.modifyFace key fun f => { f with lastUsed := t.now } := by
  have hmet := faceFor_cases r index source
  unfold sender at h
  split at h
  · cases h
  · rename_i found t hface
    cases h
    rw [hface] at hmet
    exact ⟨t, hmet, rfl⟩

/-- The sender is found again under its address, and was heard of now. -/
theorem found_sender (hfaces : r.faces.WellFormed) (h : r.sender index source = (.ok key, s)) :
    s.findFace? index source = some key ∧ ∀ f, s.face? key = some f → f.lastUsed = s.now := by
  obtain ⟨t, hmet, rfl⟩ := ok_of_sender h
  have hfound : t.findFace? index source = some key := by
    cases hmet with
    | known hkey => exact hkey
    | new hnone =>
      refine Slots.find?_insert_of_none hfaces hnone ?_
      simp [Face.fresh]
  have hsame : (t.modifyFace key fun f => { f with lastUsed := t.now }).findFace? index source =
      t.findFace? index source :=
    findFace?_of_mapEntries (fun f => { f with lastUsed := t.now }) (fun _ => rfl) (fun _ => rfl)
      (Slots.mapEntries_modify fun _ _ => rfl)
  refine ⟨hsame.trans hfound, fun f hf => ?_⟩
  have hget := Slots.get?_modify t.faces key (fun f => { f with lastUsed := t.now }) key
  rw [if_pos rfl] at hget
  obtain ⟨g, -, rfl⟩ := Option.map_eq_some_iff.1 (hget.symm.trans hf)
  rfl

/-- Nothing changes if the same sender is heard of again at the same time. -/
theorem sender_again (hfaces : r.faces.WellFormed) (h : r.sender index source = (.ok key, s))
    (hsame : t.outline = s.outline) : t.sender index source = (.ok key, t) := by
  obtain ⟨hfound, hheard⟩ := found_sender hfaces h
  rw [← findFace?_of_mapEntries Face.bare (fun _ => rfl) (fun _ => rfl)
    (faces_of_outline hsame)] at hfound
  have hheard' : ∀ f, t.face? key = some f → { f with lastUsed := t.now } = f := by
    intro f hf
    have hget := congrArg (·.get? key) (faces_of_outline hsame)
    simp only [Slots.get?_mapEntries] at hget
    have hf' : t.faces.get? key = some f := hf
    rw [hf', Option.map_some, eq_comm, Option.map_eq_some_iff] at hget
    obtain ⟨g, hg, hbare⟩ := hget
    have hlast : f.lastUsed = t.now := by
      rw [now_of_outline hsame, ← hheard g hg]
      exact (congrArg Face.lastUsed hbare).symm
    rw [← hlast]
  rw [sender, faceFor, hfound]
  dsimp only
  rw [modifyFace, Slots.modify_eq_self hheard']

end

/-! ## The relay without records -/

/-- The relay without the records of what happened: its state, and all that it transmitted, handed
    up and asked of its timers, in order. -/
def unlogged (r : Relay) : Relay :=
  { r with host := { r.host with effects := r.host.effects.filter fun e => !e.isRecord } }

theorem unlogged_logAll (r : Relay) (records : List LogRecord) :
    (r.logAll records).unlogged = r.unlogged := by
  induction records generalizing r with
  | nil => rfl
  | cons record rest ih =>
    refine (ih _).trans ?_
    simp [unlogged, emit, Host.emit, List.filter_append, Effect.isRecord]

/-- Handling a buffer is handling its packets, records apart. -/
theorem unlogged_handleBuffer (onFragment : FragmentHandler) (r : Relay) (key : FaceKey)
    (bytes : Bytes) : (r.handleBuffer onFragment key bytes).2.unlogged =
      ((Datagram.read bytes).packets.foldl (dispatch onFragment key) r).unlogged := by
  unfold handleBuffer
  dsimp only
  split
  · exact unlogged_logAll _ _
  · rfl

/-! ## Two buffers in one -/

theorem receive_eq {r s : Relay} {index : Nat} {source : FaceAddress} {key : FaceKey}
    (h : r.sender index source = (.ok key, s)) (bytes : Bytes) :
    r.receive index bytes source = (.ok (Datagram.read bytes).packets.length,
      (s.handleBuffer takeFragment key bytes).2) := by
  rw [receive, h]
  rfl

/-- Whoever sent a buffer is the same face again after the handling of it. -/
theorem sender_handleBuffer {r s : Relay} (hr : r.faces.WellFormed) {index : Nat} {source : FaceAddress}
    {key : FaceKey} (h : r.sender index source = (.ok key, s)) (bytes : Bytes) :
    (s.handleBuffer takeFragment key bytes).2.sender index source =
      (.ok key, (s.handleBuffer takeFragment key bytes).2) :=
  sender_again hr h
    (acrossPackets_outline.handleBuffer (fun u packet => acrossPackets_outline.takeFragment u key packet)
      s bytes)

/-- Bytes that come behind others that can be read to their end are handled as if they came by
    themselves, if no encoding switch is in force there or they begin with one: the relay ends in
    the same state, has made the same happen, and has handled as many packets. If they begin with
    no packet, nothing is made of them. Of the relay it only matters that its faces can be told
    apart, as those of every reachable relay can. -/
theorem receive_append {r s : Relay} (hr : r.faces.WellFormed) {index n : Nat} {first second : Bytes}
    {source : FaceAddress} (hfirst : r.receive index first source = (.ok n, s))
    (hwhole : (Datagram.read first).obstacle = none)
    (hswitch : Datagram.inForce none first = none ∨ second.head? = some Switch.mark) :
    ∃ m t u, s.receive index second source = (.ok m, t) ∧
      r.receive index (first ++ second) source = (.ok (n + m), u) ∧
      u.unlogged = t.unlogged ∧
      ((Datagram.read second).packets = [] → u.unlogged = s.unlogged) := by
  cases hsender : r.sender index source with
  | mk outcome t =>
    cases outcome with
    | error e =>
      rw [receive, hsender] at hfirst
      cases hfirst
    | ok key =>
      rw [receive_eq hsender] at hfirst
      cases hfirst
      have hpackets := Datagram.read_append hwhole hswitch
      have hstart : (t.handleBuffer takeFragment key first).2 =
          (Datagram.read first).packets.foldl (dispatch takeFragment key) t := by
        rw [handleBuffer, hwhole]
      have hagain := sender_handleBuffer hr hsender first
      have hboth : (t.handleBuffer takeFragment key (first ++ second)).2.unlogged =
          ((Datagram.read second).packets.foldl (dispatch takeFragment key)
            ((Datagram.read first).packets.foldl (dispatch takeFragment key) t)).unlogged := by
        rw [unlogged_handleBuffer, hpackets, List.foldl_append]
      rw [hstart] at hagain ⊢
      refine ⟨_, _, (t.handleBuffer takeFragment key (first ++ second)).2,
        receive_eq hagain second, ?_, ?_, fun hnone => ?_⟩
      · rw [receive_eq hsender, hpackets, List.length_append]
      · rw [hboth, unlogged_handleBuffer]
      · rw [hboth, hnone]
        rfl

/-- A relay with one interface. -/
def listening : Relay :=
  (Relay.fresh (Host.fresh ⟨0⟩ (fun _ => none) fun _ => true)).perform
    (.addInterface .application 0 {})

theorem wellFormed_listening : listening.faces.WellFormed :=
  ((Reachable.fresh _ _ _).perform _).consistent.faces

/-- An NDN interest for `/a`. -/
def ndnInterest : Bytes := [5, 11, 7, 3, 8, 1, 97, 10, 4, 0, 0, 0, 1]

/-- A CCNx interest for `/b`. -/
def ccnxInterest : Bytes :=
  [1, 0, 0, 21, 255, 0, 0, 8, 0, 1, 0, 9, 0, 0, 0, 5, 0, 1, 0, 1, 98]

theorem sender_listening :
    ∃ key s, listening.sender 0 (.path "reader") = (.ok key, s) := by
  have hnew : listening.findFace? 0 (.path "reader") = none := by decide +kernel
  have hindex : listening.interfaces[0]? = some (.fresh .application 0 {}) := rfl
  rw [sender, faceFor, hnew]
  dsimp only
  rw [addFace, hindex, hnew]
  exact ⟨_, _, rfl⟩

/-- Two interests in one buffer are handled like the same in two. -/
theorem receive_append_interests :
    ∃ s m t u, listening.receive 0 ndnInterest (.path "reader") = (.ok 1, s) ∧
      s.receive 0 ccnxInterest (.path "reader") = (.ok m, t) ∧
      listening.receive 0 (ndnInterest ++ ccnxInterest) (.path "reader") = (.ok (1 + m), u) ∧
      u.unlogged = t.unlogged := by
  obtain ⟨key, s, hsender⟩ := sender_listening
  have hfirst := receive_eq hsender ndnInterest
  have hone : (Datagram.read ndnInterest).packets.length = 1 := by decide +kernel
  rw [hone] at hfirst
  have hwhole : (Datagram.read ndnInterest).obstacle = none := by decide +kernel
  have hswitch : Datagram.inForce none ndnInterest = none ∨
      ccnxInterest.head? = some Switch.mark := .inl (by decide +kernel)
  obtain ⟨m, t, u, hsecond, hboth, hsame, -⟩ :=
    receive_append wellFormed_listening hfirst hwhole hswitch
  exact ⟨_, m, t, u, hfirst, hsecond, hboth, hsame⟩

/-- A switch in front of the first interest still holds for the second if both come in one buffer,
    and so the second cannot be read. -/
theorem receive_append_switched :
    ∃ s t u, listening.receive 0 (Switch.header .ndn ++ ndnInterest) (.path "reader") = (.ok 1, s) ∧
      (Datagram.read (Switch.header .ndn ++ ndnInterest)).obstacle = none ∧
      s.receive 0 ccnxInterest (.path "reader") = (.ok 1, t) ∧
      listening.receive 0 ((Switch.header .ndn ++ ndnInterest) ++ ccnxInterest) (.path "reader") =
        (.ok 1, u) := by
  obtain ⟨key, s, hsender⟩ := sender_listening
  have hone : (Datagram.read (Switch.header .ndn ++ ndnInterest)).packets.length = 1 := by
    decide +kernel
  have hone' : (Datagram.read ccnxInterest).packets.length = 1 := by decide +kernel
  have hboth : (Datagram.read ((Switch.header .ndn ++ ndnInterest) ++ ccnxInterest)).packets.length =
      1 := by decide +kernel
  have hfirst := receive_eq hsender (Switch.header .ndn ++ ndnInterest)
  have hagain := sender_handleBuffer wellFormed_listening hsender (Switch.header .ndn ++ ndnInterest)
  have hsecond := receive_eq hagain ccnxInterest
  have htogether := receive_eq hsender ((Switch.header .ndn ++ ndnInterest) ++ ccnxInterest)
  rw [hone] at hfirst
  rw [hone'] at hsecond
  rw [hboth] at htogether
  exact ⟨_, _, _, hfirst, by decide +kernel, hsecond, htogether⟩

end Relay

end NameRelay
