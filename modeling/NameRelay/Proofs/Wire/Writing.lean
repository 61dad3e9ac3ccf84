-- SUMMARY: What an action on a front buffer writes, and when it fails.
import NameRelay.Proofs.Wire.Numbers
import NameRelay.Wire.Scratch

/-!
# What actions write

`Puts action a bs fits` says all there is to say about an action: it writes `bs` in front and
returns `a` if its lengths fit their fields and there is room for `bs`, and otherwise it fails, with
an error that tells which of the two was missing. There is one rule for each way in which actions
are put together, so a writer is described by going through its text.
-/

namespace NameRelay

namespace Write

/-- What comes of an action on the buffer `b`. -/
inductive Outcome {α : Type} (a : α) (bs : Bytes) (fits : Prop) (b : FrontBuffer) :
    Except EncodeError α × FrontBuffer → Prop where
  | written (hfits : fits) (hroom : bs.length ≤ b.room) :
      Outcome a bs fits b (.ok a, ⟨bs ++ b.bytes, b.room - bs.length⟩)
  | tooLong (h : ¬fits) (c : FrontBuffer) : Outcome a bs fits b (.error .valueTooLong, c)
  | noRoom (h : b.room < bs.length) (c : FrontBuffer) :
      Outcome a bs fits b (.error .bufferTooShort, c)

/-- The action writes `bs` and returns `a`, if its lengths fit and the buffer has room. -/
def Puts {α : Type} (action : Write α) (a : α) (bs : Bytes) (fits : Prop) : Prop :=
  ∀ b, Outcome a bs fits b (action.run.run b)

variable {α β : Type} {a : α} {bs cs : Bytes} {p q : Prop}

theorem Puts.congr {action : Write α} (h : Puts action a bs p) (hbs : bs = cs) (hp : p ↔ q) :
    Puts action a cs q := by
  subst hbs
  rwa [← propext hp]

/-! ## Putting actions together -/

theorem run_bind (x : Write α) (f : α → Write β) (b : FrontBuffer) :
    (x >>= f).run.run b = match x.run.run b with
      | (.ok a, c) => (f a).run.run c
      | (.error e, c) => (.error e, c) := by
  simp only [bind, ExceptT.bind, ExceptT.mk, ExceptT.run, StateT.bind, StateT.run]
  cases hx : x b with
  | mk outcome c => cases outcome <;> rfl

theorem run_get (b : FrontBuffer) : (get : Write FrontBuffer).run.run b = (.ok b, b) := rfl

theorem run_bytes (bs : Bytes) (b : FrontBuffer) : (bytes bs).run.run b =
    if bs.length ≤ b.room then (.ok (), ⟨bs ++ b.bytes, b.room - bs.length⟩)
    else (.error .bufferTooShort, b) := by
  rw [bytes, run_bind, run_get]
  dsimp only
  split <;> rfl

theorem run_measured (x : Write Unit) (b : FrontBuffer) :
    (measured x).run.run b = match x.run.run b with
      | (.ok _, c) => (.ok (b.room - c.room), c)
      | (.error e, c) => (.error e, c) := by
  rw [measured, run_bind, run_get]
  dsimp only
  rw [run_bind]
  cases x.run.run b with
  | mk outcome c => cases outcome <;> rfl

theorem puts_pure (a : α) : Puts (pure a) a [] True := fun b => .written trivial (Nat.zero_le b.room)

theorem puts_bytes (bs : Bytes) : Puts (bytes bs) () bs True := by
  intro b
  rw [run_bytes]
  split
  · rename_i h
    exact .written trivial h
  · rename_i h
    exact .noRoom (Nat.lt_of_not_le h) b

theorem puts_throw (a : α) (bs : Bytes) : Puts (throw .valueTooLong) a bs False :=
  fun b => .tooLong not_false b

/-- What is written later stands in front. -/
theorem Puts.bind {x : Write α} {f : α → Write β} {b : β} (hx : Puts x a bs p)
    (hf : Puts (f a) b cs q) : Puts (x >>= f) b (cs ++ bs) (p ∧ q) := by
  intro buffer
  rw [run_bind]
  have hfirst := hx buffer
  revert hfirst
  generalize x.run.run buffer = result
  intro hfirst
  cases hfirst with
  | written hp hroom =>
    have hsecond := hf ⟨bs ++ buffer.bytes, buffer.room - bs.length⟩
    dsimp only
    revert hsecond
    generalize (f a).run.run ⟨bs ++ buffer.bytes, buffer.room - bs.length⟩ = result
    intro hsecond
    cases hsecond with
    | written hq hroom' =>
      have hlength : (cs ++ bs).length = cs.length + bs.length := List.length_append
      have hleft : buffer.room - bs.length - cs.length = buffer.room - (cs ++ bs).length := by
        omega
      rw [← List.append_assoc, hleft]
      refine .written ⟨hp, hq⟩ ?_
      dsimp only at hroom'
      omega
    | tooLong hq c => exact .tooLong (fun h => hq h.2) c
    | noRoom hroom' c =>
      refine .noRoom ?_ c
      rw [List.length_append]
      dsimp only at hroom'
      omega
  | tooLong hp c => exact .tooLong (fun h => hp h.1) c
  | noRoom hroom c =>
    refine .noRoom ?_ c
    rw [List.length_append]
    omega

/-- An action followed by one that needs nothing from it. -/
theorem Puts.andThen {x : Write Unit} {y : Write β} {b : β} (hx : Puts x () bs p)
    (hy : Puts y b cs q) : Puts (do x; y) b (cs ++ bs) (p ∧ q) := hx.bind hy

/-- An action that comes first only under a condition. -/
theorem Puts.andThenIf {x : Write Unit} {y : Write β} {b : β} (c : Prop) [Decidable c]
    (hx : Puts x () bs True) (hy : Puts y b cs q) :
    Puts (if c then do x; y else y) b (cs ++ if c then bs else []) q := by
  split
  · exact (hx.andThen hy).congr rfl (Iff.of_eq (true_and q))
  · exact hy.congr (List.append_nil cs).symm Iff.rfl

theorem Puts.measured {x : Write Unit} (h : Puts x () bs p) : Puts (measured x) bs.length bs p := by
  intro b
  rw [run_measured]
  have houtcome := h b
  revert houtcome
  generalize x.run.run b = result
  intro houtcome
  cases houtcome with
  | written hp hroom =>
    have hlength : b.room - (b.room - bs.length) = bs.length := by omega
    dsimp only
    rw [hlength]
    exact .written hp hroom
  | tooLong hp c => exact .tooLong hp c
  | noRoom hroom c => exact .noRoom hroom c

theorem puts_optional {γ : Type} {write : γ → Write Unit} {out : γ → Bytes}
    (h : ∀ c, Puts (write c) () (out c) True) (value : Option γ) :
    Puts (optional value write) () (value.elim [] out) True := by
  cases value with
  | none => exact puts_pure ()
  | some c => exact h c

/-- A list that is written from its end comes out in order. -/
theorem puts_reverse_forM {γ : Type} {write : γ → Write Unit} {out : γ → Bytes} {fits : γ → Prop}
    (h : ∀ c, Puts (write c) () (out c) (fits c)) (items : List γ) :
    Puts (items.reverse.forM write) () (items.flatMap out) (∀ c ∈ items, fits c) := by
  have hforward : ∀ items : List γ, Puts (items.forM write) () (items.reverse.flatMap out)
      (∀ c ∈ items, fits c) := by
    intro items
    induction items with
    | nil => exact (puts_pure ()).congr rfl (by simp)
    | cons c items ih =>
      exact ((h c).andThen ih).congr (by simp) (by simp)
  exact (hforward items.reverse).congr (by rw [List.reverse_reverse]) (by simp)

/-- The components of a name come out in order. -/
theorem puts_components {component : Bytes → Write Unit} {out : Bytes → Bytes}
    (h : ∀ wire, Puts (component wire) () (out wire) True) (name : Name) :
    Puts (components name component) () (name.wireComponents.flatMap out) True :=
  (puts_reverse_forM h name.wireComponents).congr rfl (by simp)

/-! ## Numbers -/

theorem puts_byte (b : UInt8) : Puts (byte b) () [b] True := puts_bytes [b]

theorem puts_word16 (n : Nat) : Puts (word16 n) () (bigEndian 2 n) True := puts_bytes _

theorem puts_word32 (n : Nat) : Puts (word32 n) () (bigEndian 4 n) True := puts_bytes _

theorem puts_minimal (n : Nat) : Puts (minimal n) () (minimalBigEndian n) True := puts_bytes _

theorem puts_length16 (n : Nat) : Puts (length16 n) () (bigEndian 2 n) (n < 0x10000) := by
  unfold length16
  split
  · rename_i h
    exact (puts_word16 n).congr rfl (by simp [h])
  · rename_i h
    exact (puts_throw () _).congr rfl (by simp [h])

theorem puts_head16 (type length : Nat) :
    Puts (head16 type length) () (bigEndian 2 type ++ bigEndian 2 length) (length < 0x10000) :=
  ((puts_length16 length).andThen (puts_word16 type)).congr rfl (by simp)

theorem puts_varNumber (n : Nat) : Puts (varNumber n) () (varNumberBytes n) True := by
  unfold varNumber varNumberBytes
  split
  · exact puts_byte _
  · split
    · exact ((puts_word16 n).andThen (puts_byte 253)).congr rfl (by simp)
    · split
      · exact ((puts_word32 n).andThen (puts_byte 254)).congr rfl (by simp)
      · exact ((puts_bytes _).andThen (puts_byte 255)).congr rfl (by simp)

theorem puts_nonNegative (n : Nat) : Puts (nonNegative n) () (nonNegativeBytes n) True := by
  unfold nonNegative nonNegativeBytes
  split
  · exact puts_byte _
  · split
    · exact puts_word16 n
    · split
      · exact puts_word32 n
      · exact puts_bytes _

/-! ## Whole packets -/

/-- What comes of writing `bs` where there is room for so many bytes. -/
inductive Result (bs : Bytes) (fits : Prop) (capacity : Nat) : Except EncodeError Bytes → Prop where
  | written (hfits : fits) (hroom : bs.length ≤ capacity) : Result bs fits capacity (.ok bs)
  | tooLong (h : ¬fits) : Result bs fits capacity (.error .valueTooLong)
  | noRoom (h : capacity < bs.length) : Result bs fits capacity (.error .bufferTooShort)

/-- What comes of an action on an empty buffer. -/
theorem Puts.result {action : Write Unit} (h : Puts action () bs p) (capacity : Nat) :
    Result bs p capacity (toBytes capacity action) := by
  unfold toBytes
  have houtcome := h (FrontBuffer.empty capacity)
  revert houtcome
  generalize action.run.run (FrontBuffer.empty capacity) = outcome
  intro houtcome
  cases houtcome with
  | written hp hroom =>
    dsimp only [FrontBuffer.empty, Except.map]
    rw [List.append_nil]
    exact .written hp hroom
  | tooLong hp c => exact .tooLong hp
  | noRoom hroom c => exact .noRoom hroom

theorem Result.eq_ok_iff {capacity : Nat} {result : Except EncodeError Bytes}
    (h : Result bs p capacity result) (out : Bytes) :
    result = .ok out ↔ p ∧ bs.length ≤ capacity ∧ out = bs := by
  cases h with
  | written hp hroom => simp [hp, hroom, eq_comm]
  | tooLong hp => simp [hp]
  | noRoom hroom => simp [Nat.not_le_of_lt hroom]

/-- Where there is room, only a length can be too long. -/
theorem Result.eq_error_iff_of_room {capacity : Nat} {result : Except EncodeError Bytes}
    (h : Result bs p capacity result) (hroom : bs.length ≤ capacity) (e : EncodeError) :
    result = .error e ↔ e = .valueTooLong ∧ ¬p := by
  cases h with
  | written hp _ => simp [hp]
  | tooLong hp => simp [hp, eq_comm]
  | noRoom hfull => exact absurd hroom (Nat.not_le_of_lt hfull)

/-- Where no length can be too long, only room can be missing. -/
theorem Result.eq_error_iff_of_fits {capacity : Nat} {result : Except EncodeError Bytes}
    (h : Result bs p capacity result) (hp : p) (e : EncodeError) :
    result = .error e ↔ e = .bufferTooShort ∧ capacity < bs.length := by
  cases h with
  | written _ hroom => simp [Nat.not_lt_of_le hroom]
  | tooLong hnot => exact absurd hp hnot
  | noRoom hfull => simp [hfull, eq_comm]

/-- What an action writes into an empty buffer, if it fits. -/
theorem Puts.toBytes_eq_ok_iff {action : Write Unit} (h : Puts action () bs p) (capacity : Nat)
    (out : Bytes) :
    toBytes capacity action = .ok out ↔ p ∧ bs.length ≤ capacity ∧ out = bs :=
  (h.result capacity).eq_ok_iff out

theorem roomFor_eq (name : Name) (payload : Nat) :
    roomFor name payload = payload + flatAllowance +
      (name.components.flatten.length + name.components.length * componentAllowance) := by
  have hsum : ∀ wires : List Bytes,
      wires.foldr (fun wire room => wire.length + componentAllowance + room) 0 =
        wires.flatten.length + wires.length * componentAllowance := by
    intro wires
    induction wires with
    | nil => rfl
    | cons wire wires ih =>
      rw [List.foldr_cons, ih, List.flatten_cons, List.length_append, List.length_cons,
        Nat.succ_mul]
      omega
  rw [roomFor, hsum]

/-- What is written for components takes as much more than the components as each of them does. -/
theorem length_flatMap_le {out : Bytes → Bytes} {more : Nat} {wires : List Bytes}
    (h : ∀ wire ∈ wires, (out wire).length ≤ wire.length + more) :
    (wires.flatMap out).length ≤ wires.flatten.length + wires.length * more := by
  induction wires with
  | nil => simp
  | cons wire wires ih =>
    have hfirst := h wire List.mem_cons_self
    have hrest := ih fun w hw => h w (List.mem_cons_of_mem wire hw)
    simp only [List.flatMap_cons, List.flatten_cons, List.length_append, List.length_cons,
      Nat.succ_mul]
    omega

/-- The room for a packet has a bound if its parts have. -/
theorem roomFor_lt {name : Name} {payload : Nat} (hcount : name.components.length ≤ maxComponents)
    (hcomponents : ∀ wire ∈ name.components, wire.length < 2 ^ 53) (hpayload : payload < 2 ^ 53) :
    roomFor name payload < 2 ^ 60 := by
  have hsum : ∀ wires : List Bytes, (∀ wire ∈ wires, wire.length < 2 ^ 53) →
      wires.foldr (fun wire room => wire.length + componentAllowance + room) 0 ≤
        wires.length * (2 ^ 53 + componentAllowance) := by
    intro wires
    induction wires with
    | nil => exact fun _ => Nat.le_refl 0
    | cons wire wires ih =>
      intro hall
      have hfirst := hall wire List.mem_cons_self
      have hrest := ih fun w hw => hall w (List.mem_cons_of_mem wire hw)
      rw [List.foldr_cons, List.length_cons, Nat.succ_mul]
      omega
  have hall := hsum name.components hcomponents
  have hmany := Nat.mul_le_mul_right (2 ^ 53 + componentAllowance) hcount
  simp only [roomFor, flatAllowance, componentAllowance, maxComponents] at hall hmany ⊢
  omega

end Write

end NameRelay
