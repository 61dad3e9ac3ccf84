-- SUMMARY: What a face has in flight is what stands in the ring of its interface.
import NameRelay.Proofs.Face.Ring
import NameRelay.Proofs.Relay.Links

/-!
# Queues

Packets wait at their faces, units wait in the rings, and each side relies on the other: a face lets
its next packet go when the last unit of the one before has left, so a unit that got lost would
silence it for good. A relay is balanced if the books of both sides agree. Every operation on a
single face and the ring of its interface moves one line only, and keeps the books of all others.
-/

namespace NameRelay

/-! ## Faces and rings -/

theorem Fragmenter.mtu_fragment (f : Fragmenter) (suite : Suite) (bytes : Bytes) :
    (f.fragment suite bytes).2.mtu = f.mtu := by
  unfold fragment
  split
  · split
    · rfl
    · split <;> rfl
  · rfl

theorem Ring.Holds.self {α : Type} {size : Nat} {r : Ring α size} {xs : List α} (h : r.Holds xs) :
    r.Holds r.toList := by rwa [h.toList_eq]

namespace Face

/-- Where a face leads and what its link carries, which stays as it is. -/
def line (f : Face) : Option Nat × FaceAddress × Option Nat :=
  (f.interface, f.address, f.fragmenter.mtu)

/-- So many units are what remains of the packet in flight. -/
def Counts (f : Face) (n : Nat) : Prop :=
  match f.inFlight with
  | none => n = 0
  | some p => p.remaining = n ∧ 0 < n

/-- So many units are what remains of the packet in flight, and packets wait only behind one. -/
def Fits (f : Face) (n : Nat) : Prop := f.Counts n ∧ (f.inFlight = none → f.queue = [])

variable {f g : Face} {n : Nat}

theorem line_eq_iff : g.line = f.line ↔ g.interface = f.interface ∧ g.address = f.address ∧
    g.fragmenter.mtu = f.fragmenter.mtu := by simp only [line, Prod.mk.injEq]

theorem counts_of_none (h : f.inFlight = none) : f.Counts n ↔ n = 0 := by rw [Counts, h]

theorem counts_of_some {p : InFlight} (h : f.inFlight = some p) :
    f.Counts n ↔ p.remaining = n ∧ 0 < n := by rw [Counts, h]

theorem Counts.congr (h : f.Counts n) (hg : g.inFlight = f.inFlight) : g.Counts n := by
  rwa [Counts, hg]

theorem Fits.congr (h : f.Fits n) (hg : g.inFlight = f.inFlight) (hq : g.queue = f.queue) :
    g.Fits n := ⟨h.1.congr hg, fun hnone => hq.trans (h.2 (hg.symm.trans hnone))⟩

/-- A face with units in a ring has a packet in flight. -/
theorem Counts.inFlight_isSome (h : f.Counts (n + 1)) : f.inFlight.isSome = true := by
  cases hp : f.inFlight with
  | none => exact absurd ((counts_of_none hp).1 h) (Nat.succ_ne_zero n)
  | some p => rfl

/-- One unit less is counted. -/
theorem Counts.settle (h : f.Counts (n + 1)) : f.settle.Counts n := by
  unfold Face.settle
  cases hp : f.inFlight with
  | none => exact absurd ((counts_of_none hp).1 h) (Nat.succ_ne_zero n)
  | some p =>
    obtain ⟨hremaining, -⟩ := (counts_of_some hp).1 h
    dsimp only
    split
    · exact (counts_of_none rfl).2 (by omega)
    · exact (counts_of_some rfl).2 ⟨by dsimp only; omega, by omega⟩

theorem line_settle (f : Face) : f.settle.line = f.line := by
  unfold settle
  split
  · split <;> rfl
  · rfl

end Face

/-- What a release of a face with `n` units in a ring of these units puts there: more units of the
    face, all counted. -/
structure Release.Loads (out : Release) (key : FaceKey) (f : Face) (n : Nat)
    (units added : List Transmission) : Prop where
  ring : out.ring.Holds (units ++ added)
  own : ∀ unit ∈ added, unit.face = some key ∧ unit.destination = f.address
  line : out.face.line = f.line
  counts : out.face.Counts (n + added.length)

/-- The release puts units in the ring if any packet can go, and leaves none waiting that could. -/
structure Release.Adds (out : Release) (key : FaceKey) (f : Face) (n : Nat)
    (units added : List Transmission) : Prop extends out.Loads key f n units added where
  waits : out.face.inFlight = none → out.face.queue = []
  refused : out.released = false → added = []

namespace Face

/-- What comes of one packet that a face takes off its queue: as many of its units as there is room
    for go into the ring, and are in flight. -/
def launch (f : Face) (fragmenter : Fragmenter) (rest : List QueuedPacket) (bytes : Bytes)
    (units : List Transmission) (ring : Ring Transmission maxQueueLength) : Release :=
  let (ring, refused) := ring.pushAll units
  let went := units.length - refused
  ⟨{ f with fragmenter, queue := rest, inFlight := if went = 0 then none else some ⟨bytes, went⟩ },
    ring, went ≠ 0, []⟩

section

variable {f : Face} {fragmenter : Fragmenter} {rest : List QueuedPacket} {bytes : Bytes}
  {new : List Transmission} {ring : Ring Transmission maxQueueLength}

theorem launch_face_of_lt (h : (ring.pushAll new).2 < new.length) :
    (f.launch fragmenter rest bytes new ring).face =
      { f with
        fragmenter
        queue := rest
        inFlight := some ⟨bytes, new.length - (ring.pushAll new).2⟩ } := by
  have hwent : new.length - (ring.pushAll new).2 ≠ 0 := Nat.sub_ne_zero_of_lt h
  simp only [launch, if_neg hwent]

theorem launch_face_of_le (hidle : f.inFlight = none) (h : new.length ≤ (ring.pushAll new).2) :
    (f.launch fragmenter rest bytes new ring).face = { f with fragmenter, queue := rest } := by
  have hwent : new.length - (ring.pushAll new).2 = 0 := Nat.sub_eq_zero_of_le h
  simp only [launch, if_pos hwent, hidle]

end

variable {f : Face} {key : FaceKey} {index n : Nat} {ring : Ring Transmission maxQueueLength}
  {units : List Transmission}

theorem own_units {whole : Bytes} {fragments : Option (List Bytes)} {unit : Transmission}
    (h : unit ∈ f.units key whole fragments) : unit.face = some key ∧ unit.destination = f.address := by
  obtain ⟨bytes, -, rfl⟩ := List.mem_map.1 h
  exact ⟨rfl, rfl⟩

/-- The units of a packet that find room go into the ring, and are counted. -/
theorem loads_launch (hidle : f.inFlight = none) (h : ring.Holds units) {fragmenter : Fragmenter}
    (hmtu : fragmenter.mtu = f.fragmenter.mtu) (rest : List QueuedPacket) (bytes : Bytes)
    {new : List Transmission} (hnew : ∀ unit ∈ new, unit.face = some key ∧ unit.destination = f.address) :
    (f.launch fragmenter rest bytes new ring).Loads key f 0 units
      (new.take (maxQueueLength - units.length)) := by
  obtain ⟨hholds, hcount⟩ := h.pushAll new
  have hadded := List.length_take (i := maxQueueLength - units.length) (l := new)
  refine ⟨hholds, fun unit hunit => hnew unit (List.mem_of_mem_take hunit), ?_, ?_⟩
  · simp only [launch, line, hmtu]
  · rcases Nat.lt_or_ge (ring.pushAll new).2 new.length with hwent | hnone
    · rw [launch_face_of_lt hwent]
      exact (counts_of_some rfl).2 ⟨by dsimp only; omega, by omega⟩
    · rw [launch_face_of_le hidle hnone]
      exact (counts_of_none hidle).2 (by omega)

/-- The first packet of which some unit finds room goes, and with it those that were before it. -/
theorem adds_releaseFrom (hidle : f.inFlight = none) (h : ring.Holds units)
    (queue : List QueuedPacket) :
    ∃ added, (releaseFrom key index f ring queue).Adds key f 0 units added := by
  induction queue generalizing f ring with
  | nil =>
    refine ⟨[], ⟨?_, fun _ hmem => (nomatch hmem), rfl, (counts_of_none hidle).2 rfl⟩,
      fun _ => rfl, fun _ => rfl⟩
    rwa [List.append_nil]
  | cons next rest ih =>
    -- a packet that does not go leaves its fragmenter further on, and the ring with the same units
    have hskip {fragmenter : Fragmenter} (hf : fragmenter.mtu = f.fragmenter.mtu)
        {ring : Ring Transmission maxQueueLength} (h : ring.Holds units)
        (records : List LogRecord) : ∃ added, ((releaseFrom key index { f with fragmenter } ring
          rest).after records).Adds key f 0 units added := by
      obtain ⟨added, ⟨hring, hown, hline, hcounts⟩, hwaits, hrefused⟩ :=
        ih (f := { f with fragmenter }) hidle h
      refine ⟨added, ⟨hring, hown, hline.trans ?_, hcounts⟩, hwaits, hrefused⟩
      simp only [line, hf]
    have hmtu := f.fragmenter.mtu_fragment next.suite next.bytes
    unfold releaseFrom
    split
    · rename_i fragmenter hcut
      rw [hcut] at hmtu
      exact hskip hmtu h _
    · rename_i fragments fragmenter hcut
      rw [hcut] at hmtu
      have hnew : ∀ unit ∈ f.units key next.bytes fragments,
          unit.face = some key ∧ unit.destination = f.address := fun unit => own_units
      obtain ⟨hring, hown, hline, hcounts⟩ := loads_launch hidle h hmtu rest next.bytes hnew
      dsimp only
      split
      · rename_i hwent
        rw [launch_face_of_lt hwent] at hline hcounts
        exact ⟨_, ⟨hring, hown, hline, hcounts⟩, fun hnone => (nomatch hnone), fun hno => (nomatch hno)⟩
      · rename_i hnone
        rw [launch_face_of_le hidle (Nat.le_of_not_lt hnone)] at hcounts
        have hadded := (counts_of_none (f := { f with fragmenter, queue := rest }) hidle).1 hcounts
        rw [List.length_eq_zero_iff.1 (Nat.eq_zero_of_add_eq_zero_left hadded), List.append_nil] at hring
        exact hskip hmtu hring _

/-- A face that waits for its packet in flight adds nothing. -/
theorem release_of_inFlight (h : f.inFlight.isSome = true) :
    f.release key index ring = ⟨f, ring, false, []⟩ := by rw [release, if_pos h]

/-- A release keeps the count, and leaves no packet waiting that could go. -/
theorem adds_release (key : FaceKey) (index : Nat) (hcount : f.Counts n) (h : ring.Holds units) :
    ∃ added, (f.release key index ring).Adds key f n units added := by
  cases hp : f.inFlight with
  | none =>
    rw [(counts_of_none hp).1 hcount, release, hp]
    exact adds_releaseFrom hp h f.queue
  | some p =>
    rw [release_of_inFlight (by rw [hp]; rfl)]
    refine ⟨[], ⟨?_, fun _ hmem => (nomatch hmem), rfl, hcount⟩, fun hnone => ?_, fun _ => rfl⟩
    · rwa [List.append_nil]
    · cases hp.symm.trans hnone

end Face

namespace Relay

/-! ## The books -/

/-- The units that wait at an interface. -/
def units (r : Relay) (index : Nat) : List Transmission :=
  (r.interfaces[index]?.map fun i => i.queue.toList).getD []

/-- How many of them are of this face. -/
def unitsOf (r : Relay) (key : FaceKey) (index : Nat) : Nat :=
  (r.units index).countP fun unit => unit.face == some key

/-- Leaving out the units of one face makes no difference to another. -/
theorem filter_foreign {k key : FaceKey} (hk : k ≠ key) (l : List Transmission) :
    (l.filter (·.face != some key)).filter (·.face == some k) = l.filter (·.face == some k) := by
  rw [List.filter_filter]
  refine List.filter_congr fun unit _ => ?_
  by_cases hunit : unit.face = some k
  · simp [hunit, hk]
  · simp [hunit]

theorem countP_foreign {k key : FaceKey} (hk : k ≠ key) (l : List Transmission) :
    (l.filter (·.face != some key)).countP (fun unit => unit.face == some k) =
      l.countP fun unit => unit.face == some k := by
  rw [List.countP_eq_length_filter, filter_foreign hk, List.countP_eq_length_filter]

/-- The unit is of a face of the interface, and goes to its address. -/
def Owned (r : Relay) (index : Nat) (unit : Transmission) : Prop :=
  ∃ key f, unit.face = some key ∧ r.face? key = some f ∧ f.interface = some index ∧
    unit.destination = f.address

/-- Rings are queues, units in a ring are of faces of the interface, each face belongs to an
    interface that there is, and no interface is in the midst of being drained. -/
structure Lines (r : Relay) : Prop where
  faces : r.faces.WellFormed
  rings : ∀ i ∈ r.interfaces, i.queue.Holds i.queue.toList
  owned : ∀ index, ∀ unit ∈ r.units index, r.Owned index unit
  homes : ∀ key f index, r.face? key = some f → f.interface = some index →
    ∃ i, r.interfaces[index]? = some i ∧ f.fragmenter.mtu = (Fragmenter.ofMtu i.mtu).mtu
  calm : ∀ i ∈ r.interfaces, i.draining = false

/-- What the face has in flight is what stands in the ring. -/
def Counted (r : Relay) (key : FaceKey) : Prop :=
  ∀ f index, r.face? key = some f → f.interface = some index → f.Counts (r.unitsOf key index)

/-- What the face has in flight is what stands in the ring, and nothing waits that could go. -/
def Settled (r : Relay) (key : FaceKey) : Prop :=
  ∀ f index, r.face? key = some f → f.interface = some index → f.Fits (r.unitsOf key index)

/-- The books of all faces and rings agree. -/
structure Balanced (r : Relay) : Prop extends Lines r where
  settled : ∀ key, r.Settled key

theorem Settled.counted {r : Relay} {key : FaceKey} (h : r.Settled key) : r.Counted key :=
  fun f index hf hindex => (h f index hf hindex).1

section

variable {r s : Relay} {index : Nat} {i : Interface}

theorem units_of_interface (h : r.interfaces[index]? = some i) : r.units index = i.queue.toList := by
  rw [units, h, Option.map_some, Option.getD_some]

/-- Another ring in the place of one. -/
theorem units_of_set (h : r.interfaces[index]? = some i) {ring : Ring Transmission maxQueueLength}
    (hs : s.interfaces = r.interfaces.set index { i with queue := ring }) (j : Nat) :
    s.units j = if j = index then ring.toList else r.units j := by
  have hlt : index < r.interfaces.length := (List.getElem?_eq_some_iff.1 h).1
  rw [units, hs, List.getElem?_set]
  by_cases hj : j = index
  · rw [if_pos hj.symm, if_pos (hj ▸ hlt), if_pos hj]
    rfl
  · rw [if_neg (Ne.symm hj), if_neg hj]
    rfl

theorem face?_modifyFace (r : Relay) (key : FaceKey) (g : Face → Face) (k : FaceKey) :
    (r.modifyFace key g).face? k = if k = key then (r.face? k).map g else r.face? k :=
  Slots.get?_modify r.faces key g k

theorem face?_modifyFace_self (r : Relay) (key : FaceKey) (g : Face → Face) :
    (r.modifyFace key g).face? key = (r.face? key).map g := by rw [face?_modifyFace, if_pos rfl]

end

/-! ## One line -/

/-- The timers that are armed, the number of those granted, and what the interfaces wait for. -/
def timing (r : Relay) : List ArmedTimer × Nat × List (Option Nat) :=
  (r.host.armed, r.host.granted, r.interfaces.map (·.timer))

/-- From `r` to `s` only one line moved: what the face keeps and its units in the ring. -/
structure OnLine (key : FaceKey) (r s : Relay) : Prop where
  timing : s.timing = r.timing
  faces : r.faces.WellFormed → s.faces.WellFormed
  others : ∀ k, k ≠ key → s.face? k = r.face? k
  line : (s.face? key).map Face.line = (r.face? key).map Face.line
  mtus : s.interfaces.map (·.mtu) = r.interfaces.map (·.mtu)
  rings : (∀ i ∈ r.interfaces, i.queue.Holds i.queue.toList) →
    ∀ i ∈ s.interfaces, i.queue.Holds i.queue.toList
  foreign : ∀ index, (s.units index).filter (·.face != some key) =
    (r.units index).filter (·.face != some key)
  own : ∀ index, ∀ unit ∈ s.units index, unit.face = some key →
    unit ∈ r.units index ∨ r.Owned index unit
  calm : (∀ i ∈ r.interfaces, i.draining = false) → ∀ i ∈ s.interfaces, i.draining = false

namespace OnLine

variable {key : FaceKey} {r s t : Relay}

theorem refl (key : FaceKey) (r : Relay) : OnLine key r r :=
  ⟨rfl, id, fun _ _ => rfl, rfl, rfl, id, fun _ => rfl, fun _ _ hunit _ => .inl hunit, id⟩

/-! ### Faces and units before and after -/

/-- A face leads where it led before. -/
theorem before (h : OnLine key r s) {k : FaceKey} {g : Face} (hg : s.face? k = some g) :
    ∃ f, r.face? k = some f ∧ g.line = f.line := by
  by_cases hk : k = key
  · have hline := h.line
    rw [← hk, hg, Option.map_some] at hline
    obtain ⟨f, hf, hsame⟩ := Option.map_eq_some_iff.1 hline.symm
    exact ⟨f, hf, hsame.symm⟩
  · exact ⟨g, (h.others k hk).symm.trans hg, rfl⟩

/-- A face goes on to lead where it leads. -/
theorem behind (h : OnLine key r s) {k : FaceKey} {f : Face} (hf : r.face? k = some f) :
    ∃ g, s.face? k = some g ∧ g.line = f.line := by
  by_cases hk : k = key
  · have hline := h.line
    rw [← hk, hf, Option.map_some] at hline
    exact Option.map_eq_some_iff.1 hline
  · exact ⟨f, (h.others k hk).trans hf, rfl⟩

theorem owned_iff (h : OnLine key r s) {index : Nat} {unit : Transmission} :
    s.Owned index unit ↔ r.Owned index unit := by
  constructor
  · rintro ⟨k, g, hk, hg, hindex, haddress⟩
    obtain ⟨f, hf, hline⟩ := h.before hg
    obtain ⟨hinterface, hsame, -⟩ := Face.line_eq_iff.1 hline
    exact ⟨k, f, hk, hf, hinterface.symm.trans hindex, haddress.trans hsame⟩
  · rintro ⟨k, f, hk, hf, hindex, haddress⟩
    obtain ⟨g, hg, hline⟩ := h.behind hf
    obtain ⟨hinterface, hsame, -⟩ := Face.line_eq_iff.1 hline
    exact ⟨k, g, hk, hg, hinterface.trans hindex, haddress.trans hsame.symm⟩

/-! ### Steps on a line -/

theorem trans (h : OnLine key r s) (h' : OnLine key s t) : OnLine key r t where
  timing := h'.timing.trans h.timing
  faces hr := h'.faces (h.faces hr)
  others k hk := (h'.others k hk).trans (h.others k hk)
  line := h'.line.trans h.line
  mtus := h'.mtus.trans h.mtus
  rings hr := h'.rings (h.rings hr)
  foreign index := (h'.foreign index).trans (h.foreign index)
  own index unit hunit hown := by
    rcases h'.own index unit hunit hown with hmem | howned
    · exact h.own index unit hmem hown
    · exact .inr (h.owned_iff.1 howned)
  calm hr := h'.calm (h.calm hr)

/-- Of the host only the timers matter. -/
theorem withHost (h : OnLine key r s) {host : Host} (harmed : host.armed = s.host.armed)
    (hgranted : host.granted = s.host.granted) : OnLine key r { s with host } where
  timing := by
    rw [← h.timing, Relay.timing, harmed, hgranted]
    rfl
  faces := h.faces
  others := h.others
  line := h.line
  mtus := h.mtus
  rings := h.rings
  foreign := h.foreign
  own := h.own
  calm := h.calm

/-- The outbox of the face changes. -/
theorem modifyFace (r : Relay) {key : FaceKey} {g : Face → Face}
    (h : ∀ f, r.face? key = some f → (g f).line = f.line) : OnLine key r (r.modifyFace key g) where
  timing := rfl
  faces hr := Slots.wellFormed_modify hr key g
  others k hk := by rw [face?_modifyFace, if_neg hk]
  line := by
    rw [face?_modifyFace_self]
    cases hf : r.face? key with
    | none => rfl
    | some f => exact congrArg some (h f hf)
  mtus := rfl
  rings := id
  foreign _ := rfl
  own _ _ hunit _ := .inl hunit
  calm := id

/-- The ring changes, but for the units of other faces. -/
theorem setRing {index : Nat} {i : Interface} (hi : r.interfaces[index]? = some i)
    {ring : Ring Transmission maxQueueLength} {units : List Transmission} (hring : ring.Holds units)
    (hforeign : units.filter (·.face != some key) = (r.units index).filter (·.face != some key))
    (hown : ∀ unit ∈ units, unit ∈ r.units index ∨ r.Owned index unit) :
    OnLine key r { r with interfaces := r.interfaces.set index { i with queue := ring } } where
  timing := by
    have htimers := map_set_of_eq (b := { i with queue := ring }) Interface.timer hi rfl
    simp only [Relay.timing, htimers]
  faces := id
  others _ _ := rfl
  line := rfl
  mtus := map_set_of_eq _ hi rfl
  rings hr j hj := by
    rcases List.mem_or_eq_of_mem_set hj with hold | rfl
    · exact hr j hold
    · exact hring.self
  foreign j := by
    rw [units_of_set hi rfl, hring.toList_eq]
    split
    · rename_i hj
      rw [hj, hforeign]
    · rfl
  own j unit hunit := by
    rw [units_of_set hi rfl, hring.toList_eq] at hunit
    split at hunit
    · rename_i hj
      rw [hj]
      exact fun _ => hown unit hunit
    · exact fun _ => .inl hunit
  calm hr j hj := by
    rcases List.mem_or_eq_of_mem_set hj with hold | rfl
    · exact hr j hold
    · exact hr i (List.mem_of_getElem? hi)

/-- Other faces have the same units in the rings. -/
theorem unitsOf (h : OnLine key r s) {k : FaceKey} (hk : k ≠ key) (index : Nat) :
    s.unitsOf k index = r.unitsOf k index := by
  rw [Relay.unitsOf, Relay.unitsOf, ← countP_foreign hk, h.foreign, countP_foreign hk]

end OnLine

theorem Lines.onLine {key : FaceKey} {r s : Relay} (hr : r.Lines) (h : OnLine key r s) :
    s.Lines where
  faces := h.faces hr.faces
  rings := h.rings hr.rings
  owned index unit hunit := by
    rw [h.owned_iff]
    by_cases hown : unit.face = some key
    · exact (h.own index unit hunit hown).elim (hr.owned index unit) id
    · have hforeign : unit ∈ (s.units index).filter (·.face != some key) :=
        List.mem_filter.2 ⟨hunit, by simpa using hown⟩
      rw [h.foreign] at hforeign
      exact hr.owned index unit (List.mem_filter.1 hforeign).1
  homes k g index hg hindex := by
    obtain ⟨f, hf, hline⟩ := h.before hg
    obtain ⟨hinterface, -, hkept⟩ := Face.line_eq_iff.1 hline
    obtain ⟨i, hi, hmtu⟩ := hr.homes k f index hf (hinterface.symm.trans hindex)
    have hmtus := congrArg (·[index]?) h.mtus
    simp only [List.getElem?_map, hi, Option.map_some, Option.map_eq_some_iff] at hmtus
    obtain ⟨j, hj, hsame⟩ := hmtus
    exact ⟨j, hj, by rw [hsame, hkept, hmtu]⟩
  calm := h.calm hr.calm

/-- The rings of other interfaces are the same. -/
theorem OnLine.units_of_ne {key : FaceKey} {r s : Relay} (h : OnLine key r s) (hr : r.Lines)
    {f : Face} (hf : r.face? key = some f) {index : Nat} (hindex : f.interface ≠ some index) :
    s.units index = r.units index := by
  have hother (unit : Transmission) (howned : r.Owned index unit) : unit.face ≠ some key := by
    obtain ⟨k, g, hk, hg, hhere, -⟩ := howned
    intro hkey
    cases hk.symm.trans hkey
    cases hf.symm.trans hg
    exact hindex hhere
  have hall {l : List Transmission} (hl : ∀ unit ∈ l, r.Owned index unit) :
      l.filter (·.face != some key) = l :=
    List.filter_eq_self.2 fun unit hunit => bne_iff_ne.2 (hother unit (hl unit hunit))
  rw [← hall (hr.owned index), ← h.foreign index]
  refine (hall fun unit hunit => ?_).symm
  exact h.owned_iff.1 ((hr.onLine h).owned index unit hunit)

/-- Other faces have the same books. -/
theorem Settled.onLine {key k : FaceKey} {r s : Relay} (hr : r.Settled k) (h : OnLine key r s)
    (hk : k ≠ key) : s.Settled k := by
  intro f index hf hindex
  rw [h.unitsOf hk]
  exact hr f index ((h.others k hk).symm.trans hf) hindex

theorem Balanced.onLine {key : FaceKey} {r s : Relay} (hr : r.Balanced) (h : OnLine key r s)
    (hs : s.Settled key) : s.Balanced where
  toLines := hr.toLines.onLine h
  settled k := by
    by_cases hk : k = key
    · exact hk ▸ hs
    · exact (hr.settled k).onLine h hk

/-! ## Releasing -/

theorem armed_logAll (r : Relay) (records : List LogRecord) :
    (r.logAll records).host.armed = r.host.armed ∧
      (r.logAll records).host.granted = r.host.granted := by
  induction records generalizing r with
  | nil => exact ⟨rfl, rfl⟩
  | cons record records ih => exact ih (r.emit (.log record))

/-- The relay after a face tried to release a packet. -/
def released (r : Relay) (key : FaceKey) (index : Nat) (i : Interface) (out : Release) : Relay :=
  { r with
    faces := r.faces.modify key fun _ => out.face
    interfaces := r.interfaces.set index { i with queue := out.ring }
    host := (r.logAll out.records).host }

section

variable {r : Relay} {key : FaceKey} {f : Face} {index : Nat} {i : Interface} {out : Release}
  {added : List Transmission}

theorem face?_released (hf : r.face? key = some f) (k : FaceKey) :
    (r.released key index i out).face? k = if k = key then some out.face else r.face? k := by
  refine (face?_modifyFace r key (fun _ => out.face) k).trans ?_
  split
  · rename_i hk
    rw [hk]
    exact congrArg (Option.map fun _ => out.face) hf
  · rfl

theorem release_eq (hf : r.face? key = some f) (hindex : f.interface = some index)
    (hi : r.interfaces[index]? = some i) :
    r.release key = ((f.release key index i.queue).released,
      r.released key index i (f.release key index i.queue)) := by
  simp only [release, hf, hindex, hi]
  rfl

theorem units_released (hi : r.interfaces[index]? = some i)
    (hloads : out.Loads key f (r.unitsOf key index) (r.units index) added) (j : Nat) :
    (r.released key index i out).units j = if j = index then r.units index ++ added else r.units j := by
  rw [units_of_set hi rfl, hloads.ring.toList_eq]

theorem onLine_released (hf : r.face? key = some f) (hindex : f.interface = some index)
    (hi : r.interfaces[index]? = some i)
    (hloads : out.Loads key f (r.unitsOf key index) (r.units index) added) :
    OnLine key r (r.released key index i out) := by
  obtain ⟨harmed, hgranted⟩ := armed_logAll r out.records
  have hforeign : (r.units index ++ added).filter (·.face != some key) =
      (r.units index).filter (·.face != some key) := by
    have hnone : added.filter (·.face != some key) = [] := by
      rw [List.filter_eq_nil_iff]
      intro unit hunit
      rw [(hloads.own unit hunit).1, bne_self_eq_false]
      exact Bool.false_ne_true
    rw [List.filter_append, hnone, List.append_nil]
  refine ((OnLine.setRing hi hloads.ring hforeign fun unit hunit => ?_).trans
    (.modifyFace _ fun g hg => ?_)).withHost harmed hgranted
  · refine (List.mem_append.1 hunit).imp_right fun hnew => ?_
    obtain ⟨hkey, haddress⟩ := hloads.own unit hnew
    exact ⟨key, f, hkey, hf, hindex, haddress⟩
  · cases hf.symm.trans hg
    exact hloads.line

theorem counted_released (hf : r.face? key = some f) (hindex : f.interface = some index)
    (hi : r.interfaces[index]? = some i)
    (hloads : out.Loads key f (r.unitsOf key index) (r.units index) added) :
    (r.released key index i out).Counted key := by
  intro g j hg hj
  rw [face?_released hf, if_pos rfl] at hg
  cases hg
  have hhere : j = index := by
    rw [(Face.line_eq_iff.1 hloads.line).1, hindex] at hj
    exact (Option.some.inj hj).symm
  have hnew : added.countP (fun unit => unit.face == some key) = added.length :=
    List.countP_eq_length.2 fun unit hunit => beq_iff_eq.2 (hloads.own unit hunit).1
  rw [unitsOf, units_released hi hloads, if_pos hhere, List.countP_append, hnew]
  exact hloads.counts

theorem settled_released (hf : r.face? key = some f) (hindex : f.interface = some index)
    (hi : r.interfaces[index]? = some i)
    (hadds : out.Adds key f (r.unitsOf key index) (r.units index) added) :
    (r.released key index i out).Settled key := by
  intro g j hg hj
  refine ⟨counted_released hf hindex hi hadds.toLoads g j hg hj, ?_⟩
  rw [face?_released hf, if_pos rfl] at hg
  cases hg
  exact hadds.waits

/-- A release moves the line of its face and settles it, and without a packet no ring changes. -/
theorem release_line (hr : r.Lines) (hcount : r.Counted key) :
    OnLine key r (r.release key).2 ∧ (r.release key).2.Settled key ∧
      ((r.release key).1 = false → ∀ j, (r.release key).2.units j = r.units j) := by
  unfold release
  split
  · rename_i hnone
    refine ⟨.refl key r, fun f _ hf => ?_, fun _ _ => rfl⟩
    cases hnone.symm.trans hf
  · rename_i f hf
    split
    · rename_i hnone
      refine ⟨.refl key r, fun g _ hg hindex => ?_, fun _ _ => rfl⟩
      cases hf.symm.trans hg
      cases hnone.symm.trans hindex
    · rename_i index hindex
      obtain ⟨i, hi, -⟩ := hr.homes key f index hf hindex
      have hholds := hr.rings i (List.mem_of_getElem? hi)
      obtain ⟨added, hadds⟩ := Face.adds_release key index
        (hcount f index hf hindex) hholds
      rw [← units_of_interface hi] at hadds
      rw [hi]
      refine ⟨onLine_released hf hindex hi hadds.toLoads, settled_released hf hindex hi hadds,
        fun hno j => (units_released hi hadds.toLoads j).trans ?_⟩
      rw [hadds.refused hno, List.append_nil]
      split
      · rename_i hj
        rw [hj]
      · rfl

/-! ## Giving units away, and queueing -/

/-- The relay after an interface gave a unit of a face away. -/
def sent (r : Relay) (key : FaceKey) (f : Face) (index : Nat) (i : Interface)
    (queue : Ring Transmission maxQueueLength) (unit : Transmission) : Relay :=
  (({ r with interfaces := r.interfaces.set index { i with queue } } : Relay).emit
    (.send index unit.destination unit.bytes)).modifyFace key fun _ => f.settle

theorem face?_sent (hf : r.face? key = some f) (index : Nat) (i : Interface)
    (queue : Ring Transmission maxQueueLength) (unit : Transmission) :
    (r.sent key f index i queue unit).face? key = some f.settle := by
  rw [sent, face?_modifyFace_self]
  exact congrArg (Option.map _) hf

/-- A unit that left the ring is counted off with its face, one of the interface. -/
theorem sent_line (hr : r.Lines) (hcount : r.Counted key) (hf : r.face? key = some f)
    (hi : r.interfaces[index]? = some i) {unit : Transmission}
    {queue : Ring Transmission maxQueueLength} (hpop : i.queue.pop? = some (unit, queue))
    (hkey : unit.face = some key) :
    f.interface = some index ∧ r.units index = unit :: (r.sent key f index i queue unit).units index ∧
      OnLine key r (r.sent key f index i queue unit) ∧
      (r.sent key f index i queue unit).Counted key := by
  obtain ⟨rest, hunits, hrest⟩ := (hr.rings i (List.mem_of_getElem? hi)).of_pop? hpop
  have hleft : (r.sent key f index i queue unit).units index = rest := by
    rw [units_of_set (s := r.sent key f index i queue unit) hi rfl, if_pos rfl, hrest.toList_eq]
  rw [← units_of_interface hi] at hunits
  obtain ⟨k, g, hk, hg, hindex, -⟩ := hr.owned index unit (hunits ▸ List.mem_cons_self)
  cases hkey.symm.trans hk
  cases hf.symm.trans hg
  have hforeign : rest.filter (·.face != some key) =
      (r.units index).filter (·.face != some key) := by
    rw [hunits, List.filter_cons_of_neg (by simp [hkey])]
  have hpopped : OnLine key r (({ r with
      interfaces := r.interfaces.set index { i with queue } } : Relay).emit
        (.send index unit.destination unit.bytes)) :=
    (OnLine.setRing hi hrest hforeign fun other hother =>
      .inl (hunits ▸ List.mem_cons_of_mem unit hother)).withHost rfl rfl
  refine ⟨hindex, hleft.symm ▸ hunits, hpopped.trans (.modifyFace _ fun g hg => ?_), ?_⟩
  · cases hf.symm.trans hg
    exact f.line_settle
  · intro g j hg hj
    cases (face?_sent hf index i queue unit).symm.trans hg
    have hinterface := (Face.line_eq_iff.1 f.line_settle).1.symm.trans hj
    have hcounts := hcount f j hf hinterface
    cases hindex.symm.trans hinterface
    rw [unitsOf, hunits, List.countP_cons_of_pos (by simp [hkey])] at hcounts
    rw [unitsOf, hleft]
    exact hcounts.settle

/-- A unit is given away and counted off, and with the last of its packet the face may go on. -/
theorem sendNext_cases {s : Relay} (hr : r.Lines) (h : r.sendNext index = some s) :
    ∃ key f i unit queue, r.face? key = some f ∧ r.interfaces[index]? = some i ∧
      i.queue.pop? = some (unit, queue) ∧ unit.face = some key ∧
      s = if f.inFlight.isSome && f.settle.inFlight.isNone
        then ((r.sent key f index i queue unit).release key).2
        else r.sent key f index i queue unit := by
  unfold sendNext at h
  split at h
  · cases h
  · rename_i i hi
    split at h
    · cases h
    · rename_i unit queue hpop
      obtain ⟨rest, hunits, -⟩ := (hr.rings i (List.mem_of_getElem? hi)).of_pop? hpop
      rw [← units_of_interface hi] at hunits
      obtain ⟨key, f, hkey, hf, -⟩ := hr.owned index unit (hunits ▸ List.mem_cons_self)
      refine ⟨key, f, i, unit, queue, hf, hi, hpop, hkey, ?_⟩
      have hpopped : (({ r with interfaces := r.interfaces.set index { i with queue } } : Relay).emit
          (.send index unit.destination unit.bytes)).face? key = some f := hf
      simp only [hkey, settle, hpopped, Option.some.injEq] at h
      exact h.symm

/-- After each unit that is given away its face is settled again. -/
theorem sendNext_line {s : Relay} (hr : r.Balanced) (h : r.sendNext index = some s) :
    ∃ key f, r.face? key = some f ∧ f.interface = some index ∧ OnLine key r s ∧ s.Settled key := by
  obtain ⟨key, f, i, unit, queue, hf, hi, hpop, hkey, rfl⟩ := sendNext_cases hr.toLines h
  obtain ⟨hindex, hunits, hline, hcounted⟩ :=
    sent_line hr.toLines (hr.settled key).counted hf hi hpop hkey
  refine ⟨key, f, hf, hindex, ?_⟩
  split
  · obtain ⟨hreleased, hsettled, -⟩ := release_line (hr.toLines.onLine hline) hcounted
    exact ⟨hline.trans hreleased, hsettled⟩
  · rename_i hlast
    refine ⟨hline, fun g j hg hj => ⟨hcounted g j hg hj, fun hnone => ?_⟩⟩
    -- the face has the unit that leaves in flight, so it is not the last of its packet
    have hbefore := (hr.settled key).counted f index hf hindex
    rw [unitsOf, hunits, List.countP_cons_of_pos (by simp [hkey])] at hbefore
    cases (face?_sent hf index i queue unit).symm.trans hg
    rw [hbefore.inFlight_isSome, hnone] at hlast
    exact absurd rfl hlast

/-- A packet that is queued and may be released at once moves the line of its face. -/
theorem queued_line (hr : r.Balanced) (hf : r.face? key = some f)
    (p : QueuedPacket) {t : Relay} {released : Bool}
    (h : (r.modifyFace key fun f => { f with queue := f.queue ++ [p] }).release key =
      (released, t)) :
    OnLine key r t ∧ t.Settled key ∧ (released = false → ∀ j, t.units j = r.units j) := by
  have hline : OnLine key r (r.modifyFace key fun f => { f with queue := f.queue ++ [p] }) :=
    .modifyFace r fun _ _ => rfl
  have hreleased := release_line (hr.toLines.onLine hline) fun g j hg hj => by
    rw [face?_modifyFace_self, hf] at hg
    cases hg
    exact ((hr.settled key).counted f j hf hj).congr rfl
  rw [h] at hreleased
  obtain ⟨hmoved, hsettled, hrefused⟩ := hreleased
  exact ⟨hline.trans hmoved, hsettled, hrefused⟩

/-- A queued packet moves the line of its face. If units of it went to the ring, the interface
    starts to send. -/
theorem enqueue_line (hr : r.Balanced) (key : FaceKey) (suite : Suite) (bytes : Bytes) :
    (r.enqueue key suite bytes).2.links = r.links ∨
      ∃ f index t, r.face? key = some f ∧ f.interface = some index ∧ OnLine key r t ∧
        t.Settled key ∧ ((r.enqueue key suite bytes).2 = t.kick index ∨
          (r.enqueue key suite bytes).2 = t ∧ ∀ j, t.units j = r.units j) := by
  unfold enqueue
  split
  · exact .inl rfl
  · rename_i f hf
    split
    · exact .inl rfl
    · rename_i index hindex
      split
      · exact .inl (links_log r _ _)
      · dsimp only
        split
        · rename_i s hs
          obtain ⟨hline, hsettled, -⟩ := queued_line hr hf _ hs
          exact .inr ⟨f, index, s, hf, hindex, hline, hsettled, .inl rfl⟩
        · rename_i s hs
          obtain ⟨hline, hsettled, hrefused⟩ := queued_line hr hf _ hs
          exact .inr ⟨f, index, s, hf, hindex, hline, hsettled, .inr ⟨rfl, hrefused rfl⟩⟩

end

end Relay

end NameRelay
