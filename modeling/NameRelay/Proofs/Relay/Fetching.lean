-- SUMMARY: What the own node publishes in chunks can be fetched back, chunk by chunk.
import NameRelay.Proofs.Format.Surviving
import NameRelay.Proofs.Name.Chunks
import NameRelay.Proofs.Relay.Copies
import NameRelay.Proofs.Relay.Publishing
import NameRelay.Proofs.Relay.Uniqueness

/-!
# Fetching what was published

The own node publishes contents in numbered chunks and asks for them by number. All chunks stand in
the store beside each other, under names that differ in one component only, and the first that
answers an interest is served. It is the chunk that was asked for, since no other answers; and it is
handed to the application, without a packet that leaves the node or an interest that waits.
-/

namespace NameRelay

/-! ## Chunks of a publication -/

namespace Publication

/-- The bytes of a chunk: as many as a chunk holds, from where the chunks before it end. Behind the
    last bytes there are none. -/
def piece (p : Publication) (i : Nat) : Bytes := (p.bytes.drop (i * p.chunkSize)).take p.chunkSize

/-- What a chunk says besides: the number of the last chunk, if there are several. -/
def options (p : Publication) : ContentOptions where
  finalBlock := if 1 < p.count then p.lastChunk? else none

variable {p : Publication} {first last : UInt32}

theorem getElem?_payloads (h : 0 < p.chunkSize) (i : Nat) :
    p.payloads.toArray[i]?.getD [] = p.piece i := by
  have hsize : p.chunkSize - 1 + 1 = p.chunkSize := Nat.sub_add_cancel h
  have hpiece := Bytes.getElem?_pieces (p.chunkSize - 1) p.bytes i
  rw [hsize] at hpiece
  rw [payloads, if_neg (Nat.ne_of_gt h), List.getElem?_toArray, hpiece, piece]

/-- The numbers of all chunks are numbers of 32 bits. -/
theorem toNat_number (hfirst : p.firstChunk = some first) (hlast : p.lastChunk? = some last)
    {i : Nat} (hi : i < p.count) : (first + UInt32.ofNat i).toNat = first.toNat + i := by
  unfold lastChunk? word32? at hlast
  rw [hfirst, Option.getD_some] at hlast
  split at hlast
  · rename_i hlt
    rw [UInt32.toNat_add, UInt32.toNat_ofNat']
    omega
  · cases hlast

/-- A chunk is written under its name, with its piece of the bytes, and read back. -/
theorem exists_wire_of_chunk (hfirst : p.firstChunk = some first) (hlast : p.lastChunk? = some last)
    (hsize : 0 < p.chunkSize) {i : Nat} {packet : Packet}
    (h : p.chunk p.payloads.toArray last i = .ok packet) :
    ∃ name wire, p.name.withChunk (first + UInt32.ofNat i) = .ok name ∧
      p.name.suite.encodeContent name (p.piece i) p.options = .ok wire ∧
        p.name.suite.readBack wire = .ok packet := by
  obtain ⟨name, hname, hencode⟩ := ok_of_bind h
  obtain ⟨wire, hwire, hread⟩ := ok_of_bind hencode
  have hnumbered := ok_of_mapError hname
  have hwritten := ok_of_mapError hwire
  have hoptions : p.options = { finalBlock := if 1 < p.count then some last else none } := by
    rw [options, hlast]
  simp only [chunkName, hfirst, Option.isNone_some, Option.getD_some, Bool.false_eq_true, false_and,
    if_false] at hnumbered
  rw [getElem?_payloads hsize, ← hoptions] at hwritten
  exact ⟨name, wire, hnumbered, hwritten, hread⟩

/-- The name of every chunk survives in the packet of the chunk. -/
def Survives (p : Publication) (first : UInt32) : Prop :=
  ∀ i < p.count, ∀ name, p.name.withChunk (first + UInt32.ofNat i) = .ok name →
    name.Survives (p.piece i) p.options

end Publication

/-- The packet is the content with this payload that is named as chunk `number` of the base, and an
    interest can ask for it. -/
structure Packet.IsChunk (packet : Packet) (base : Name) (number : UInt32) (payload : Bytes) :
    Prop where
  named : ∃ name, base.withChunk number = .ok name ∧ packet.name? = some name ∧
    ∀ nonce : Bytes, nonce.length = 4 → name.Asks { nonce := some nonce }
  suite : packet.suite = base.suite
  content : packet.content? = some payload

/-- Where the names of the chunks survive, each packet of a publication is the chunk in its place,
    and can be asked for. -/
theorem Publication.Survives.isChunk {p : Publication} {first : UInt32} {packets : List Packet}
    (hsurvives : p.Survives first) (hfirst : p.firstChunk = some first) (hsize : 0 < p.chunkSize)
    (h : p.packets = .ok packets) {i : Nat} (hi : i < packets.length) :
    packets[i].IsChunk p.name (first + UInt32.ofNat i) (p.piece i) := by
  have hcount : i < p.count := length_packets h ▸ hi
  unfold Publication.packets at h
  cases hlast : p.lastChunk? with
  | none =>
    rw [hlast] at h
    cases h
  | some last =>
    rw [hlast] at h
    obtain ⟨-, hall⟩ := List.forall₂_iff_get.1 (forall₂_of_mapM h)
    have hchunk := hall i (by rwa [List.length_range]) hi
    simp only [List.get_eq_getElem, List.getElem_range] at hchunk
    obtain ⟨name, wire, hname, hwrite, hread⟩ := exists_wire_of_chunk hfirst hlast hsize hchunk
    rw [← Name.suite_withChunk hname] at hwrite hread
    have hsuite : name.suite ≠ .iot :=
      Name.suite_withChunk hname ▸ Name.suite_ne_iot_of_withChunk hname
    have hkept {nonce : Bytes} (hnonce : nonce.length = 4) :=
      (hsurvives i hcount name hname).readBack hsuite hwrite hread hnonce
    obtain ⟨⟨hpacket, hnamed, hcontent⟩, -⟩ := hkept (length_bigEndian 4 0)
    exact ⟨⟨name, hname, hnamed, fun _ hnonce => (hkept hnonce).2⟩,
      hpacket.trans (Name.suite_withChunk hname), hcontent⟩

namespace Relay

variable {r s : Relay}

/-! ## What a publication puts in the store -/

/-- A packet that was not stored before is pinned where it is put. -/
theorem pinnedAt_store {packet : Packet} (hr : r.contents.slots.WellFormed)
    (h : r.store packet { pinned := true } = (.ok true, s)) :
    ∃ key, (s.servePending packet).2.contents.PinnedAt key packet := by
  rw [contents_stored h]
  by_cases htakes : r.contents.Takes packet { pinned := true }
  · obtain ⟨t, _, _, hspares, -, heq⟩ := ContentStore.insert_of_takes htakes r.now
    rw [heq]
    exact ⟨_, _, Slots.get?_insert_self (hspares.wellFormed hr) _, rfl, rfl⟩
  · unfold store at h
    rcases ContentStore.insert_cases_of_not_takes htakes r.now with ⟨heq, -⟩ | ⟨heq, -⟩ <;>
      rw [heq] at h <;> cases h

/-- Publishing puts nothing else in the store. -/
theorem mem_of_publishPackets {packets : List Packet} {n : Nat}
    (h : r.publishPackets packets = (.ok n, s)) {key : ContentKey} {e : StoredContent}
    (he : s.contents.get? key = some e) : e.packet ∈ packets ∨ r.contents.get? key = some e := by
  induction packets generalizing r n with
  | nil =>
    cases h
    exact .inr he
  | cons packet packets ih =>
    obtain ⟨stored, t, more, hstore, hrest, -⟩ := publishPackets_cons h
    rcases ih hrest with hin | hold
    · exact .inl (List.mem_cons_of_mem packet hin)
    · rw [contents_stored hstore] at hold
      rcases ContentStore.get?_of_get?_insert hold with rfl | hold
      · exact .inl List.mem_cons_self
      · exact .inr hold

theorem le_of_publishPackets {packets : List Packet} {n : Nat}
    (h : r.publishPackets packets = (.ok n, s)) : n ≤ packets.length := by
  induction packets generalizing r n with
  | nil =>
    cases h
    exact Nat.le_refl 0
  | cons packet packets ih =>
    obtain ⟨stored, t, more, -, hrest, rfl⟩ := publishPackets_cons h
    have hmore := ih hrest
    have hone := Bool.toNat_le stored
    rw [List.length_cons]
    omega

/-- If none was stored before, all packets are pinned. -/
theorem pinnedAt_publishPackets {packets : List Packet} (hr : r.contents.slots.WellFormed)
    (h : r.publishPackets packets = (.ok packets.length, s)) {packet : Packet}
    (hpacket : packet ∈ packets) : ∃ key, s.contents.PinnedAt key packet := by
  induction packets generalizing r with
  | nil => cases hpacket
  | cons first packets ih =>
    obtain ⟨stored, t, more, hstore, hrest, hcount⟩ := publishPackets_cons h
    have hmore := le_of_publishPackets hrest
    have hwellFormed := ContentStore.wellFormed_insert hr first { pinned := true } r.now
    rw [← contents_stored hstore] at hwellFormed
    -- each packet counts for one, so all were new
    rw [List.length_cons] at hcount
    cases stored with
    | false =>
      rw [Bool.toNat_false] at hcount
      omega
    | true =>
      rw [Bool.toNat_true] at hcount
      obtain rfl : more = packets.length := by omega
      rcases List.mem_cons.1 hpacket with rfl | hin
      · obtain ⟨key, hat⟩ := pinnedAt_store hr hstore
        have hchanges := StoreChanges.publishPackets (t.servePending packet).2 packets
        rw [hrest] at hchanges
        exact ⟨key, (hat.changes hwellFormed hchanges).2⟩
      · exact ih hwellFormed hrest hin

theorem nonces_publishPackets (r : Relay) (packets : List Packet) :
    (r.publishPackets packets).2.nonces = r.nonces := by
  induction packets generalizing r with
  | nil => rfl
  | cons packet packets ih =>
    have hstored := nonces_store r packet { pinned := true }
    unfold publishPackets
    split
    · rename_i hs
      rwa [hs] at hstored
    · rename_i t hs
      rw [hs] at hstored
      exact (ih _).trans ((nonces_servePending t packet).trans hstored)

/-! ## Which chunk answers -/

variable {base wanted : Name} {m n : UInt32} {payload nonce : Bytes}

/-- An interest for a chunk. -/
structure Asking (interest : Packet) (wanted : Name) (nonce : Bytes) : Prop where
  named : interest.name? = some wanted
  suite : interest.suite = wanted.suite
  told : ({ nonce := some nonce } : InterestOptions).ToldBy interest.details

theorem Asking.mustBeFresh {interest : Packet} (h : Asking interest wanted nonce) :
    interest.details.mustBeFresh = false := by
  have htold := h.told
  cases hdetails : interest.details with
  | ndn d =>
    rw [hdetails] at htold
    exact htold.2.2.2.1
  | ccnb | ccnx | cisco | iot => rfl

/-- Of the chunks of a name only the one that was asked for answers. -/
theorem answers_chunk_iff {interest content : Packet} (hasking : Asking interest wanted nonce)
    (hwanted : base.withChunk m = .ok wanted) (hcontent : content.IsChunk base n payload) :
    r.answers interest content = true ↔ m = n := by
  obtain ⟨name, hname, hnamed, -⟩ := hcontent.named
  have hadmits {least most : Nat} (hleast : least ≤ 1) (hmost : 1 ≤ most) (digest : Option Bytes) :
      wanted.admits least most name digest = true ↔ m = n :=
    Name.admits_withChunk_iff hwanted hname hleast hmost digest
  have hsuite : interest.suite = content.suite := by
    rw [hasking.suite, hcontent.suite, Name.suite_withChunk hwanted]
  have htold := hasking.told
  simp only [answers, hasking.named, hnamed, hsuite, beq_self_eq_true, Bool.true_and]
  rw [← hsuite, Packet.suite]
  cases hdetails : interest.details with
  | ccnb d =>
    rw [hdetails] at htold
    obtain ⟨-, hkey, hleast, hmost⟩ := htold
    simp only [Details.suite, Suite.admits, hasking.named, hnamed, hdetails, hkey, hleast, hmost,
      Option.isNone_none, Bool.true_or, Bool.and_true, Option.getD_none]
    exact hadmits (by decide) (by decide) _
  | ccnx d =>
    simp only [Details.suite, Suite.admits, hasking.named, hnamed]
    exact hadmits (by decide) (by decide) _
  | cisco d =>
    simp only [Details.suite, Suite.admits, hasking.named, hnamed]
    exact Name.same_withChunk_iff hwanted hname
  | iot d =>
    simp only [Details.suite, Suite.admits, hasking.named, hnamed]
    exact hadmits (by decide) (by decide) _
  | ndn d =>
    rw [hdetails] at htold
    obtain ⟨-, hleast, hmost, -⟩ := htold
    simp only [Details.suite, Suite.admits, hasking.named, hnamed, hdetails, hleast, hmost,
      Option.getD_none]
    exact hadmits (by decide) (by decide) _

/-- The chunks of a publication are stored, and nothing else is. -/
structure Shelves (r : Relay) (p : Publication) (first : UInt32) : Prop where
  all : ∀ i < p.count, ∃ key e, r.contents.get? key = some e ∧
    e.packet.IsChunk p.name (first + UInt32.ofNat i) (p.piece i)
  only : ∀ key e, r.contents.get? key = some e → ∃ i < p.count,
    e.packet.IsChunk p.name (first + UInt32.ofNat i) (p.piece i)

variable {p : Publication} {first : UInt32}

theorem Shelves.of_contents (h : r.Shelves p first) (hs : s.contents = r.contents) :
    s.Shelves p first := by
  constructor
  · rw [hs]
    exact h.all
  · rw [hs]
    exact h.only

/-- An interest for a chunk finds it. -/
theorem Shelves.stored? (h : s.Shelves p first)
    (hnumbers : ∀ i < p.count, (first + UInt32.ofNat i).toNat = first.toNat + i) {i : Nat}
    (hi : i < p.count) {interest : Packet} (hasking : Asking interest wanted nonce)
    (hwanted : p.name.withChunk (first + UInt32.ofNat i) = .ok wanted) :
    ∃ key e, s.stored? interest = some key ∧ s.contents.get? key = some e ∧
      e.packet.IsChunk p.name (first + UInt32.ofNat i) (p.piece i) := by
  have hanswers : ∀ {j e}, e.packet.IsChunk p.name (first + UInt32.ofNat j) (p.piece j) →
      (s.answersFromStore interest e = true ↔
        first + UInt32.ofNat i = first + UInt32.ofNat j) := by
    intro j e hchunk
    rw [answersFromStore, hasking.mustBeFresh, Bool.false_and, Bool.not_false, Bool.true_and]
    exact answers_chunk_iff hasking hwanted hchunk
  cases hfound : s.stored? interest with
  | none =>
    obtain ⟨key, e, he, hchunk⟩ := h.all i hi
    have hmiss := Slots.find?_eq_none_iff.1 hfound key e he
    cases hmiss.symm.trans ((hanswers hchunk).2 rfl)
  | some key =>
    obtain ⟨e, he, hhit⟩ := Slots.get?_of_find? hfound
    obtain ⟨j, hj, hchunk⟩ := h.only key e he
    have hnumber := congrArg UInt32.toNat ((hanswers hchunk).1 hhit)
    rw [hnumbers i hi, hnumbers j hj] at hnumber
    obtain rfl := Nat.add_left_cancel hnumber
    exact ⟨key, e, rfl, he, hchunk⟩

/-! ## Asking for a chunk -/

/-- The application got this content under this name, and nothing else went out. What waits at the
    interfaces, at the faces and for contents is the same as before. -/
structure Fetches (s t : Relay) (name : Name) (chunk : UInt32) (payload : Bytes) : Prop where
  sent : s.sentSince t = [.deliver name (some chunk) payload]
  interfaces : t.interfaces = s.interfaces
  faces : ∀ key f, s.face? key = some f → t.face? key = some f
  pending : t.pending = s.pending

/-- The face that stands for the application is there when it is needed. -/
theorem applicationFace_eq (hr : Visited r) : ∃ f faces,
    r.applicationFace.2 = { r with faces, localFace := some r.applicationFace.1 } ∧
      (∀ key g, r.face? key = some g → faces.get? key = some g) ∧
        faces.get? r.applicationFace.1 = some f ∧ f.isLocal = true := by
  unfold applicationFace
  split
  · rename_i key hkey
    obtain ⟨hlocal, -⟩ := Option.filter_eq_some_iff.1 hkey
    obtain ⟨f, hf, hnone⟩ := hr.homed key hlocal
    exact ⟨f, r.faces, by rw [← hlocal], fun _ _ hg => hg, hf, hr.sound.anchored key f hf hnone⟩
  · have hfaces := hr.consistent.faces
    exact ⟨_, _, rfl, fun _ _ hg => Slots.get?_insert_of_get? hfaces _ hg,
      Slots.get?_insert_self hfaces _, rfl⟩

/-- What is stored is handed to the application if the application asks for it. -/
theorem fetches_answerFromStore {origin : FaceKey} {f : Face} {key : ContentKey}
    {e : StoredContent} {name : Name} (interest : Packet) (hf : r.face? origin = some f)
    (hlocal : f.isLocal = true) (he : r.contents.get? key = some e)
    (hname : e.packet.name? = some name) (hchunk : name.chunk = some n)
    (hpayload : e.packet.content? = some payload) :
    (r.answerFromStore origin interest key).1 = .ok () ∧
      Fetches r (r.answerFromStore origin interest key).2 name n payload := by
  have htouched : (r.contents.touch key r.now).get? key =
      some { e with lastUsed := r.now, served := min (e.served + 1) ContentStore.maxServed } := by
    refine (Slots.get?_modify r.contents.slots key _ key).trans ?_
    rw [if_pos rfl]
    exact congrArg _ he
  unfold answerFromStore
  simp only [htouched]
  have hface : ∀ contents level text,
      (({ r with contents } : Relay).log level text).face? origin = some f := fun _ _ _ => hf
  simp only [serve, hface, hlocal, if_true, hname, hchunk, hpayload, Option.getD_some]
  refine ⟨trivial, ?_, rfl, fun _ _ hg => hg, rfl⟩
  have heffects : ∀ out, (r.host.effects ++ out).drop r.host.effects.length = out :=
    fun _ => List.drop_left
  simp [sentSince, emit, note, log, Host.emit, heffects, Effect.isRecord]

/-- An interest is answered from the store if its nonce is the first and the store has an answer. -/
theorem handleInterest_of_stored {interest : Packet} {key : ContentKey} (origin : FaceKey)
    (hnonces : r.nonces.nonces = []) (hstored : r.stored? interest = some key) :
    ∃ nonces, r.handleInterest origin interest =
      ({ r with nonces } : Relay).answerFromStore origin interest key := by
  obtain ⟨nonces, hrecord⟩ := recordNonce_eq r interest
  have hnew : (r.recordNonce interest).1 = false := by
    unfold recordNonce
    split
    · rfl
    · simp [NonceTable.record, NonceTable.contains, hnonces]
  have hboth : r.recordNonce interest = (false, { r with nonces }) := Prod.ext hnew hrecord
  have hfound : ({ r with nonces } : Relay).stored? interest = some key := hstored
  refine ⟨nonces, ?_⟩
  rw [handleInterest, hboth]
  simp only [hfound]

/-- A request for a chunk is an interest from the face that stands for the application. -/
theorem request_eq {wire : Bytes} {interest : Packet} (hwanted : base.withChunk n = .ok wanted)
    (hwrite : base.suite.encodeInterest wanted { nonce := some r.nextNonce.1 } = .ok wire)
    (hread : base.suite.readBack wire = .ok interest) :
    r.request base (some n) =
      r.nextNonce.2.applicationFace.2.handleInterest r.nextNonce.2.applicationFace.1 interest := by
  simp only [request, Option.elim_some, hwanted, hwrite, Except.mapError, bind, Except.bind, hread]

/-- If just the chunks of a publication are stored, a request for one of them fetches it. -/
theorem Shelves.request (h : s.Shelves p first) (hs : Visited s) (hnonces : s.nonces.nonces = [])
    (hnumbers : ∀ i < p.count, (first + UInt32.ofNat i).toNat = first.toNat + i) {i : Nat}
    (hi : i < p.count) :
    ∃ name t, p.name.withChunk (first + UInt32.ofNat i) = .ok name ∧
      s.request p.name (some (first + UInt32.ofNat i)) = (.ok (), t) ∧
        Fetches s t name (first + UInt32.ofNat i) (p.piece i) := by
  obtain ⟨_, _, -, hchunk⟩ := h.all i hi
  obtain ⟨name, hname, -, hasks⟩ := hchunk.named
  obtain ⟨wire, d, hwrite, hread, hsuite, htold⟩ := hasks s.nextNonce.1 (length_bigEndian 4 _)
  rw [Name.suite_withChunk hname] at hwrite hread
  have hvisited : Visited s.nextNonce.2 := hs.moves (.single (.nextNonce s))
  obtain ⟨f, faces, happlication, hkept, hf, hlocal⟩ := applicationFace_eq hvisited
  rw [request_eq hname hwrite hread, happlication]
  -- the chunk is found, and found where the store was all along
  have hasking : Asking ⟨wire, .message .interest name none, d⟩ name s.nextNonce.1 :=
    ⟨rfl, hsuite, htold⟩
  let asked : Relay :=
    { s.nextNonce.2 with faces, localFace := some s.nextNonce.2.applicationFace.1 }
  have hshelves : asked.Shelves p first := h.of_contents rfl
  obtain ⟨key, e, hfound, he, hstored⟩ := hshelves.stored? hnumbers hi hasking hname
  obtain ⟨name', hname', hnamed, -⟩ := hstored.named
  cases hname.symm.trans hname'
  obtain ⟨nonces, hanswer⟩ := handleInterest_of_stored s.nextNonce.2.applicationFace.1
    (show asked.nonces.nonces = [] from hnonces) hfound
  have hface : ({ asked with nonces } : Relay).face? s.nextNonce.2.applicationFace.1 = some f := hf
  obtain ⟨hok, hfetches⟩ := fetches_answerFromStore ⟨wire, .message .interest name none, d⟩ hface
    hlocal he hnamed (Name.chunk_withChunk hname) hstored.content
  refine ⟨name, _, hname, hanswer.trans (Prod.ext hok rfl), hfetches.sent, hfetches.interfaces, ?_,
    hfetches.pending⟩
  exact fun k g hg => hfetches.faces k g (hkept k g hg)

/-- A publication of which no chunk was stored before fills an empty store. -/
theorem shelves_addContent (hr : r.contents.slots.WellFormed) (hcontents : r.contents.entries = [])
    (hfirst : p.firstChunk = some first) (hsize : 0 < p.chunkSize) (hsurvives : p.Survives first)
    (h : r.addContent p = (.ok p.count, s)) :
    s.Shelves p first ∧ s.nonces = r.nonces ∧
      ∀ key e, s.pending.get? key = some e → r.pending.get? key = some e := by
  unfold addContent at h
  split at h
  · cases h
  · rename_i packets hpackets
    have hlength := Publication.length_packets hpackets
    have hchunks {i : Nat} (hi : i < packets.length) := hsurvives.isChunk hfirst hsize hpackets hi
    have hnonces := nonces_publishPackets r packets
    have hpending := @pending_publishPackets r packets
    split at h
    · cases h
    · rename_i n t hpublish
      cases h
      rw [hpublish] at hnonces hpending
      rw [← hlength] at hpublish
      refine ⟨⟨fun i hi => ?_, fun key e he => ?_⟩, hnonces, fun key e he => hpending he⟩
      · have hin : i < packets.length := hlength ▸ hi
        obtain ⟨key, e, he, heq, -⟩ := pinnedAt_publishPackets hr hpublish (List.getElem_mem hin)
        exact ⟨key, e, he, heq ▸ hchunks hin⟩
      · rcases mem_of_publishPackets hpublish he with hin | hold
        · obtain ⟨i, hi, heq⟩ := List.getElem_of_mem hin
          exact ⟨i, hlength ▸ hi, heq ▸ hchunks hi⟩
        · have hmem : (key, e) ∈ r.contents.entries := Slots.mem_entries.2 hold
          rw [hcontents] at hmem
          cases hmem

/-- What the own node publishes in chunks it can fetch back. The relay had nothing stored, nothing
    pending and no nonces; all chunks were stored, and their names survive in their packets. Then a
    request for any chunk hands just its bytes to the application, under the name and the number of
    the chunk, and does nothing else: nothing is transmitted or queued, and no interest waits. A
    chunk behind the last bytes is empty. -/
theorem published_chunk_fetched (hr : Reachable r) (hpending : r.pending.entries = [])
    (hcontents : r.contents.entries = []) (hnonces : r.nonces.nonces = [])
    (hfirst : p.firstChunk = some first) (hsize : 0 < p.chunkSize) (hsurvives : p.Survives first)
    (h : r.addContent p = (.ok p.count, s)) {i : Nat} (hi : i < p.count) :
    ∃ name t, p.name.withChunk (first + UInt32.ofNat i) = .ok name ∧
      (first + UInt32.ofNat i).toNat = first.toNat + i ∧
        s.request p.name (some (first + UInt32.ofNat i)) = (.ok (), t) ∧
          Fetches s t name (first + UInt32.ofNat i) (p.piece i) ∧ t.pending.entries = [] := by
  have hreached : Reachable s := by
    have hs := hr.perform (.addContent p)
    rwa [perform, h] at hs
  obtain ⟨hshelves, hsame, hleft⟩ :=
    shelves_addContent hr.visited.sound.contents hcontents hfirst hsize hsurvives h
  have hnumbers : ∀ i < p.count, (first + UInt32.ofNat i).toNat = first.toNat + i := by
    intro i hi
    cases hlast : p.lastChunk? with
    | some last => exact Publication.toNat_number hfirst hlast hi
    | none =>
      rw [addContent, Publication.packets, hlast] at h
      cases h
  obtain ⟨name, t, hname, hrequest, hfetches⟩ :=
    hshelves.request hreached.visited (hsame ▸ hnonces) hnumbers hi
  refine ⟨name, t, hname, hnumbers i hi, hrequest, hfetches, ?_⟩
  rw [hfetches.pending, List.eq_nil_iff_forall_not_mem]
  intro entry hentry
  have hold : entry ∈ r.pending.entries :=
    Slots.mem_entries.2 (hleft entry.1 entry.2 (Slots.mem_entries.1 hentry))
  rw [hpending] at hold
  cases hold

/-- Three bytes in chunks of two, and an empty chunk behind them. The number of the second chunk is
    the first that takes two bytes. -/
def threePages : Publication where
  name := ⟨.ndn, [[97]], none, .none⟩
  firstChunk := some 255
  bytes := [112, 113, 114]
  chunkSize := 2
  count := 3

/-- The second of them is fetched from a relay that has nothing else. -/
theorem threePages_fetched :
    ∃ s name t, (Relay.fresh (Host.fresh ⟨0⟩ (fun _ => none) fun _ => true)).addContent threePages =
        (.ok 3, s) ∧
      threePages.name.withChunk 256 = .ok name ∧
        s.request threePages.name (some 256) = (.ok (), t) ∧
          Fetches s t name 256 [114] ∧ t.pending.entries = [] := by
  let start := Relay.fresh (Host.fresh ⟨0⟩ (fun _ => none) fun _ => true)
  have hsurvive : ∀ i < 3, ∀ name ∈ (threePages.name.withChunk (255 + UInt32.ofNat i)).toOption,
      name.Survives (threePages.piece i) threePages.options := by decide +kernel
  have hdone : (start.addContent threePages).1 = .ok 3 := eq_ok_of_toOption (by decide +kernel)
  obtain ⟨s, hs⟩ : ∃ s, start.addContent threePages = (.ok 3, s) := ⟨_, by rw [← hdone]⟩
  obtain ⟨name, t, hname, -, hrequest, hfetches, hpending⟩ :=
    published_chunk_fetched (.fresh _ _ _) rfl rfl rfl rfl (by decide)
      (fun i hi name hname => hsurvive i hi name (by rw [hname]; rfl)) hs
        (by decide : 1 < threePages.count)
  exact ⟨s, name, t, hs, hname, hrequest, hfetches, hpending⟩

end Relay

end NameRelay
