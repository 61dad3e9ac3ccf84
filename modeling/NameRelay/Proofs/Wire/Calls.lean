-- SUMMARY: What stands in a front buffer stays there, whatever is written in front of it.
import NameRelay.Proofs.Wire.Writing
import NameRelay.Wire.Cursor

/-!
# Calls on a front buffer

A packet is written by calls of nine kinds. A call puts its parts in front one after the other, the
one that stands last first, and ends at a part for which there is no room. `Laid` says what comes of
parts, whatever they are; every call is its parts. So a call that succeeds has put its encoding in
front, and one that fails an end of its encoding that is not the whole.

The buffer counts its free room and holds the bytes that were written. `Bare` is the memory behind
it: cells that are all there from the start, and the number of those in front that are still free.
Whoever looks at cells asks whether there are such cells, and a `Fault` ends the run. The second half
shows that the memory never comes to a fault and shows at every moment just what the buffer holds.
-/

namespace NameRelay

namespace FrontBuffer

-- ---------------------------------------------------------------------------
-- Calls
-- ---------------------------------------------------------------------------

/-- One thing that is written in front. -/
inductive Call where
  | bytes (bs : Bytes)
  | byte (b : UInt8)
  | word16 (n : UInt16)
  | length16 (length : UInt64)
  | head16 (type : UInt16) (length : UInt64)
  | word32 (n : UInt32)
  | varNumber (n : UInt64)
  | minimal (n : UInt64)
  | nonNegative (n : UInt64)

namespace Call

/-- The action of a call. -/
def write : Call → Write Unit
  | bytes bs => Write.bytes bs
  | byte b => Write.byte b
  | word16 n => Write.word16 n.toNat
  | length16 length => Write.length16 length.toNat
  | head16 type length => Write.head16 type.toNat length.toNat
  | word32 n => Write.word32 n.toNat
  | varNumber n => Write.varNumber n.toNat
  | minimal n => Write.minimal n.toNat
  | nonNegative n => Write.nonNegative n.toNat

/-- Whether the value fits its field. Only a length has a field that may be too small for it. -/
def fits : Call → Bool
  | length16 length | head16 _ length => length.toNat < 0x10000
  | _ => true

/-- The bytes that the call stands for. -/
def encoding : Call → Bytes
  | bytes bs => bs
  | byte b => [b]
  | word16 n => bigEndian 2 n.toNat
  | length16 length => bigEndian 2 length.toNat
  | head16 type length => bigEndian 2 type.toNat ++ bigEndian 2 length.toNat
  | word32 n => bigEndian 4 n.toNat
  | varNumber n => varNumberBytes n.toNat
  | minimal n => minimalBigEndian n.toNat
  | nonNegative n => nonNegativeBytes n.toNat

/-- The number that the call returns if it succeeds. -/
def count : Call → Nat
  | bytes bs => bs.length
  | byte _ => 1
  | word16 _ | length16 _ => 2
  | head16 _ _ | word32 _ => 4
  | varNumber n =>
    if n.toNat < 253 then 1 else if n.toNat < 0x10000 then 3
    else if n.toNat < 0x100000000 then 5 else 9
  | minimal n => (minimalBigEndian n.toNat).length
  | nonNegative n =>
    if n.toNat < 0x100 then 1 else if n.toNat < 0x10000 then 2
    else if n.toNat < 0x100000000 then 4 else 8

/-- The parts that the call writes, in the order in which it writes them. -/
def parts : Call → List Bytes
  | head16 type length => [bigEndian 2 length.toNat, bigEndian 2 type.toNat]
  | varNumber n =>
    if n.toNat < 253 then [[UInt8.ofNat n.toNat]]
    else if n.toNat < 0x10000 then [bigEndian 2 n.toNat, [253]]
    else if n.toNat < 0x100000000 then [bigEndian 4 n.toNat, [254]]
    else [bigEndian 8 n.toNat, [255]]
  | call => [call.encoding]

theorem count_eq (call : Call) : call.count = call.encoding.length := by
  cases call with
  | bytes bs => rfl
  | byte b => rfl
  | word16 n => rfl
  | length16 length => rfl
  | head16 type length => rfl
  | word32 n => rfl
  | varNumber n =>
    simp only [count, encoding, varNumberBytes]
    repeat' split
    all_goals rfl
  | minimal n => rfl
  | nonNegative n =>
    simp only [count, encoding, nonNegativeBytes]
    repeat' split
    all_goals rfl

end Call

/-- The answer to a call, and the buffer after it. -/
def perform (b : FrontBuffer) (call : Call) : Except EncodeError Nat × FrontBuffer :=
  (Write.measured call.write).run.run b

/-- The answers to calls that are made one after the other, and the buffer after them. -/
def performAll (b : FrontBuffer) : List Call → List (Except EncodeError Nat) × FrontBuffer
  | [] => ([], b)
  | call :: rest =>
    let (answer, b) := b.perform call
    let (answers, b) := performAll b rest
    (answer :: answers, b)

-- ---------------------------------------------------------------------------
-- Parts
-- ---------------------------------------------------------------------------

/-- What stands there when parts have been written one after the other. -/
def joined (parts : List Bytes) : Bytes := parts.reverse.flatten

@[simp] theorem joined_cons (part : Bytes) (parts : List Bytes) :
    joined (part :: parts) = joined parts ++ part := by
  simp [joined]

/-- What comes of writing parts: all of them stand in front, or those before the first for which
    there is no room. -/
inductive Laid (parts : List Bytes) (b : FrontBuffer) : Except EncodeError Unit × FrontBuffer → Prop
  | all (hroom : (joined parts).length ≤ b.room) :
      Laid parts b (.ok (), ⟨joined parts ++ b.bytes, b.room - (joined parts).length⟩)
  | some {front rest : Bytes} (hparts : joined parts = rest ++ front) (hrest : rest ≠ [])
      (hfull : b.room < (joined parts).length) (hroom : front.length ≤ b.room) :
      Laid parts b (.error .bufferTooShort, ⟨front ++ b.bytes, b.room - front.length⟩)

theorem run_forM_cons (part : Bytes) (parts : List Bytes) (b : FrontBuffer) :
    ((part :: parts).forM Write.bytes).run.run b =
      if part.length ≤ b.room then
        (parts.forM Write.bytes).run.run ⟨part ++ b.bytes, b.room - part.length⟩
      else (.error .bufferTooShort, b) := by
  have hcons : (part :: parts).forM Write.bytes =
      (do Write.bytes part; parts.forM Write.bytes) := rfl
  rw [hcons, Write.run_bind, Write.run_bytes]
  by_cases hpart : part.length ≤ b.room
  · rw [if_pos hpart, if_pos hpart]
  · rw [if_neg hpart, if_neg hpart]

variable {b : FrontBuffer}

/-- A part for which there is room stands behind what comes of the others. -/
theorem Laid.cons {part : Bytes} {parts : List Bytes} {out : Except EncodeError Unit × FrontBuffer}
    (hpart : part.length ≤ b.room)
    (h : Laid parts ⟨part ++ b.bytes, b.room - part.length⟩ out) : Laid (part :: parts) b out := by
  have hlength : (joined (part :: parts)).length = (joined parts).length + part.length := by
    rw [joined_cons, List.length_append]
  cases h with
  | all hroom =>
    dsimp only at hroom
    have hleft : b.room - part.length - (joined parts).length =
        b.room - (joined (part :: parts)).length := by omega
    rw [← List.append_assoc, ← joined_cons, hleft]
    exact .all (by omega)
  | @some front rest hparts hrest hfull hroom =>
    dsimp only at hfull hroom
    have hfront : joined (part :: parts) = rest ++ (front ++ part) := by
      rw [joined_cons, hparts, List.append_assoc]
    have hend : (front ++ part).length = front.length + part.length := List.length_append
    have hleft : b.room - part.length - front.length = b.room - (front ++ part).length := by
      omega
    rw [← List.append_assoc, hleft]
    exact .some hfront hrest (by omega) (by omega)

/-- Where there is no room for the first part, nothing is written. -/
theorem Laid.nothing {part : Bytes} (parts : List Bytes) (hpart : b.room < part.length) :
    Laid (part :: parts) b (.error .bufferTooShort, b) := by
  have hfull : b.room < (joined (part :: parts)).length := by
    rw [joined_cons, List.length_append]
    omega
  have hne : joined (part :: parts) ≠ [] :=
    List.ne_nil_of_length_pos (Nat.lt_of_le_of_lt (Nat.zero_le _) hfull)
  exact .some (List.append_nil _).symm hne hfull (Nat.zero_le b.room)

theorem laid_forM (parts : List Bytes) (b : FrontBuffer) :
    Laid parts b ((parts.forM Write.bytes).run.run b) := by
  induction parts generalizing b with
  | nil => exact .all (Nat.zero_le b.room)
  | cons part parts ih =>
    rw [run_forM_cons]
    split
    · rename_i hpart
      exact .cons hpart (ih _)
    · rename_i hpart
      exact .nothing parts (Nat.lt_of_not_le hpart)

/-- A call writes its parts, unless its value does not fit its field. -/
theorem Call.write_eq (call : Call) :
    call.write = if call.fits then call.parts.forM Write.bytes else throw .valueTooLong := by
  have hsingle (bs : Bytes) : [bs].forM Write.bytes = Write.bytes bs := bind_pure _
  have hpair (first second : Bytes) : [first, second].forM Write.bytes =
      (do Write.bytes first; Write.bytes second) :=
    congrArg (Write.bytes first >>= ·) (funext fun _ => bind_pure _)
  cases call with
  | bytes bs => exact (hsingle bs).symm
  | byte b => exact (hsingle _).symm
  | word16 n => exact (hsingle _).symm
  | length16 length =>
    simp only [write, fits, parts, encoding, Write.length16, decide_eq_true_eq, hsingle]
    rfl
  | head16 type length =>
    simp only [write, fits, parts, Write.head16, Write.length16, decide_eq_true_eq, hpair]
    split <;> rfl
  | word32 n => exact (hsingle _).symm
  | varNumber n =>
    simp only [write, fits, parts, Write.varNumber, if_true]
    repeat' split
    all_goals simp only [hsingle, hpair]
    all_goals rfl
  | minimal n => exact (hsingle _).symm
  | nonNegative n =>
    simp only [write, fits, parts, encoding, Write.nonNegative, nonNegativeBytes, if_true, hsingle]
    repeat' split
    all_goals rfl

theorem Call.joined_parts (call : Call) : joined call.parts = call.encoding := by
  cases call with
  | varNumber n =>
    simp only [parts, encoding, varNumberBytes]
    repeat' split
    all_goals rfl
  | head16 type length => simp [joined, parts, encoding]
  | _ => exact List.append_nil _

-- ---------------------------------------------------------------------------
-- What comes of calls
-- ---------------------------------------------------------------------------

/-- What comes of a call: its encoding stands in front, or nothing because its value does not fit its
    field, or an end of its encoding because there is no room for the whole. -/
inductive Effect (b : FrontBuffer) (call : Call) : Except EncodeError Nat × FrontBuffer → Prop
  | whole (hfits : call.fits) (hroom : call.encoding.length ≤ b.room) :
      Effect b call (.ok call.encoding.length,
        ⟨call.encoding ++ b.bytes, b.room - call.encoding.length⟩)
  | tooLong (hfits : ¬call.fits) : Effect b call (.error .valueTooLong, b)
  | noRoom (hfits : call.fits) {front rest : Bytes} (hencoding : call.encoding = rest ++ front)
      (hrest : rest ≠ []) (hfull : b.room < call.encoding.length) (hroom : front.length ≤ b.room) :
      Effect b call (.error .bufferTooShort, ⟨front ++ b.bytes, b.room - front.length⟩)

variable {call : Call}

/-- Measured, the parts of a call are as many bytes as the call counts. -/
theorem Laid.measured {out : Except EncodeError Unit × FrontBuffer} : Laid call.parts b out →
    (match out with
      | (.ok _, c) => (.ok (b.room - c.room), c)
      | (.error e, c) => (.error e, c)) = (out.1.map fun _ => call.count, out.2) := by
  intro h
  cases h with
  | all hroom =>
    rw [call.joined_parts] at hroom
    have hmeasured : b.room - (b.room - call.encoding.length) = call.count := by
      rw [call.count_eq]
      omega
    simp only [Except.map, call.joined_parts, hmeasured]
  | some => rfl

theorem Laid.effect {out : Except EncodeError Unit × FrontBuffer} (hfits : call.fits)
    (h : Laid call.parts b out) : b.Effect call (out.1.map fun _ => call.count, out.2) := by
  cases h with
  | all hroom =>
    rw [call.joined_parts] at hroom ⊢
    simp only [Except.map, call.count_eq]
    exact .whole hfits hroom
  | some hparts hrest hfull hroom =>
    rw [call.joined_parts] at hparts hfull
    exact .noRoom hfits hparts hrest hfull hroom

/-- A call answers with its count, or with the error of its parts, which it has put in front. -/
theorem perform_eq (b : FrontBuffer) (call : Call) :
    b.perform call =
      if call.fits then
        let out := (call.parts.forM Write.bytes).run.run b
        (out.1.map fun _ => call.count, out.2)
      else (.error .valueTooLong, b) := by
  rw [perform, Write.run_measured, call.write_eq]
  cases call.fits with
  | false => rfl
  | true => exact (laid_forM call.parts b).measured

theorem effect_perform (b : FrontBuffer) (call : Call) : b.Effect call (b.perform call) := by
  rw [perform_eq]
  split
  · rename_i hfits
    exact (laid_forM call.parts b).effect hfits
  · rename_i hfits
    exact .tooLong hfits

variable {out : Except EncodeError Nat × FrontBuffer}

/-- No call changes what the buffer holds when it is full. -/
theorem Effect.capacity_eq (h : b.Effect call out) : out.2.capacity = b.capacity := by
  cases h with
  | whole hfits hroom =>
    simp only [capacity, List.length_append]
    omega
  | tooLong hfits => rfl
  | noRoom hfits hencoding hrest hfull hroom =>
    simp only [capacity, List.length_append]
    omega

theorem capacity_performAll (b : FrontBuffer) (calls : List Call) :
    (b.performAll calls).2.capacity = b.capacity := by
  induction calls generalizing b with
  | nil => rfl
  | cons call rest ih =>
    rw [performAll, ih]
    exact (b.effect_perform call).capacity_eq

-- ---------------------------------------------------------------------------
-- The memory behind a buffer
-- ---------------------------------------------------------------------------

/-- What can go wrong where cells are looked up. -/
inductive Fault where
  /-- A number was to be taken from a smaller one. -/
  | noDifference
  /-- There are no cells from one of these numbers up to the other. -/
  | noCells (start stop : Nat)
  /-- Bytes were to be copied into fewer or more cells than they are. -/
  | otherLength
  deriving DecidableEq, Repr

/-- What is left of a number. -/
def minus (m n : Nat) : Except Fault Nat := if n ≤ m then .ok (m - n) else .error .noDifference

/-- The contents of the cells from one number up to another. -/
def look (cells : Bytes) (start stop : Nat) : Except Fault Bytes :=
  if start ≤ stop ∧ stop ≤ cells.length then .ok ((⟨start, stop⟩ : Span).of cells)
  else .error (.noCells start stop)

/-- The cells with other contents from one number up to another. -/
def copy (cells : Bytes) (start stop : Nat) (bs : Bytes) : Except Fault Bytes := do
  let old ← look cells start stop
  if bs.length = old.length then return cells.take start ++ bs ++ cells.drop stop
  else throw .otherLength

/-- The cells without those in front up to a number. -/
def cut (cells : Bytes) (stop : Nat) : Except Fault Bytes := do
  let _ ← look cells 0 stop
  return cells.drop stop

/-- The cells behind a buffer, and the number of those in front that are free. -/
structure Bare where
  cells : Bytes
  free : Nat

namespace Bare

/-- Cells that are all free. -/
def empty (capacity : Nat) : Bare := ⟨List.replicate capacity 0, capacity⟩

/-- How many bytes have been written. -/
def length (m : Bare) : Except Fault Nat := minus m.cells.length m.free

/-- The bytes that have been written. -/
def written (m : Bare) : Except Fault Bytes := look m.cells m.free m.cells.length

/-- The bytes that have been written, as what is left of the memory. -/
def release (m : Bare) : Except Fault Bytes := cut m.cells m.free

/-- Copies a part into the last of the free cells. -/
def put (m : Bare) (part : Bytes) : Except Fault (Except EncodeError Unit × Bare) := do
  if m.free < part.length then return (.error .bufferTooShort, m)
  let start ← minus m.free part.length
  let cells ← copy m.cells start m.free part
  return (.ok (), ⟨cells, start⟩)

/-- Copies parts one after the other, up to the first for which there is no room. -/
def putAll (m : Bare) : List Bytes → Except Fault (Except EncodeError Unit × Bare)
  | [] => return (.ok (), m)
  | part :: rest => do
    match ← m.put part with
    | (.ok _, m) => putAll m rest
    | (.error e, m) => return (.error e, m)

def perform (m : Bare) (call : Call) : Except Fault (Except EncodeError Nat × Bare) := do
  if call.fits then
    let (outcome, m) ← m.putAll call.parts
    return (outcome.map fun _ => call.count, m)
  else return (.error .valueTooLong, m)

def performAll (m : Bare) : List Call → Except Fault (List (Except EncodeError Nat) × Bare)
  | [] => return ([], m)
  | call :: rest => do
    let (answer, m) ← m.perform call
    let (answers, m) ← performAll m rest
    return (answer :: answers, m)

end Bare

-- ---------------------------------------------------------------------------
-- No fault
-- ---------------------------------------------------------------------------

/-- The memory is what is behind the buffer. -/
structure Behind (b : FrontBuffer) (m : Bare) : Prop where
  room : m.free = b.room
  size : m.cells.length = b.capacity
  bytes : m.cells.drop m.free = b.bytes

theorem behind_empty (capacity : Nat) : (empty capacity).Behind (.empty capacity) where
  room := rfl
  size := by simp [Bare.empty, FrontBuffer.capacity, FrontBuffer.empty]
  bytes := by simp [Bare.empty, FrontBuffer.empty]

namespace Behind

variable {m : Bare}

theorem free_le (h : b.Behind m) : m.free ≤ m.cells.length := by
  rw [h.size, h.room]
  exact Nat.le_add_left _ _

/-- A part goes into the cells in front of those that are written. -/
theorem put (h : b.Behind m) (part : Bytes) : ∃ after,
    m.put part = .ok (((Write.bytes part).run.run b).1, after) ∧
      ((Write.bytes part).run.run b).2.Behind after := by
  rw [Write.run_bytes]
  by_cases hpart : part.length ≤ b.room
  · have hfree := h.free_le
    have hroom := h.room
    have hsize := h.size
    have hlook : look m.cells (m.free - part.length) m.free =
        .ok ((⟨m.free - part.length, m.free⟩ : Span).of m.cells) := if_pos (by omega)
    have hold : ((⟨m.free - part.length, m.free⟩ : Span).of m.cells).length = part.length := by
      simp only [Span.of, List.length_take, List.length_drop]
      omega
    have hput : m.put part = .ok (.ok (), ⟨m.cells.take (m.free - part.length) ++ part ++
        m.cells.drop m.free, m.free - part.length⟩) := by
      simp only [Bare.put, minus, copy, hlook, hold, if_neg (Nat.not_lt.2 (h.room ▸ hpart)),
        if_pos (h.room ▸ hpart), bind, Except.bind, pure, Except.pure, if_true]
    have htake : (m.cells.take (m.free - part.length)).length = m.free - part.length :=
      List.length_take_of_le (by omega)
    rw [if_pos hpart]
    refine ⟨_, hput, ?_, ?_, ?_⟩
    · rw [hroom]
    · simp only [capacity, List.length_append, htake, List.length_drop] at hsize ⊢
      omega
    · rw [List.append_assoc, List.drop_left' htake, h.bytes]
  · rw [if_neg hpart]
    exact ⟨m, if_pos (by rw [h.room]; omega), h⟩

theorem putAll (h : b.Behind m) (parts : List Bytes) : ∃ after,
    m.putAll parts = .ok (((parts.forM Write.bytes).run.run b).1, after) ∧
      ((parts.forM Write.bytes).run.run b).2.Behind after := by
  induction parts generalizing b m with
  | nil => exact ⟨m, rfl, h⟩
  | cons part parts ih =>
    obtain ⟨next, hput, hnext⟩ := h.put part
    rw [Write.run_bytes] at hput hnext
    rw [run_forM_cons]
    by_cases hpart : part.length ≤ b.room
    · rw [if_pos hpart] at hput hnext ⊢
      obtain ⟨after, hrest, hafter⟩ := ih hnext
      refine ⟨after, ?_, hafter⟩
      rw [Bare.putAll, hput]
      exact hrest
    · rw [if_neg hpart] at hput hnext ⊢
      refine ⟨next, ?_, hnext⟩
      rw [Bare.putAll, hput]
      rfl

theorem perform (h : b.Behind m) (call : Call) : ∃ after,
    m.perform call = .ok ((b.perform call).1, after) ∧ (b.perform call).2.Behind after := by
  rw [perform_eq]
  cases hfits : call.fits with
  | false =>
    refine ⟨m, ?_, h⟩
    rw [Bare.perform, hfits]
    rfl
  | true =>
    obtain ⟨after, hparts, hafter⟩ := h.putAll call.parts
    refine ⟨after, ?_, hafter⟩
    rw [Bare.perform, hfits, if_pos rfl, hparts]
    rfl

theorem performAll (h : b.Behind m) (calls : List Call) : ∃ after,
    m.performAll calls = .ok ((b.performAll calls).1, after) ∧
      (b.performAll calls).2.Behind after := by
  induction calls generalizing b m with
  | nil => exact ⟨m, rfl, h⟩
  | cons call rest ih =>
    obtain ⟨next, hcall, hnext⟩ := h.perform call
    obtain ⟨after, hrest, hafter⟩ := ih hnext
    refine ⟨after, ?_, hafter⟩
    simp only [Bare.performAll, hcall, hrest, bind, Except.bind, pure, Except.pure]
    rfl

end Behind

/-- The memory can be looked at and shows what the buffer holds. -/
structure Shown (b : FrontBuffer) (m : Bare) : Prop where
  length : m.length = .ok b.bytes.length
  room : m.free = b.room
  written : m.written = .ok b.bytes
  released : m.release = .ok b.bytes

theorem Behind.shown {m : Bare} (h : b.Behind m) : b.Shown m where
  length := by
    rw [Bare.length, minus, if_pos h.free_le, ← h.bytes, List.length_drop]
  room := h.room
  written := by
    have hall : (⟨m.free, m.cells.length⟩ : Span).of m.cells = m.cells.drop m.free :=
      List.take_of_length_le (Nat.le_of_eq List.length_drop)
    rw [Bare.written, look, if_pos ⟨h.free_le, Nat.le_refl _⟩, hall, h.bytes]
  released := by
    rw [Bare.release, cut, look, if_pos ⟨Nat.zero_le _, h.free_le⟩, ← h.bytes]
    rfl

-- ---------------------------------------------------------------------------
-- All calls
-- ---------------------------------------------------------------------------

/-- After any calls, successful or failing, the next call leaves the bytes that are there and puts
    its bytes in front: its whole encoding if it succeeds, and then it returns how long that is; if
    it fails, nothing where its value does not fit its field, and otherwise an end of its encoding
    that is not the whole. Bytes and room together are always the capacity, and the memory behind the
    buffer comes to no fault and shows the bytes in the same way whether it is looked at or given
    away. -/
theorem written_stays (capacity : Nat) (calls : List Call) (call : Call) :
    let earlier := (empty capacity).performAll calls
    let before := earlier.2
    let (answer, after) := before.perform call
    (∃ front, after.bytes = front ++ before.bytes ∧
      match answer with
      | .ok n => call.fits ∧ call.encoding.length ≤ before.room ∧ front = call.encoding ∧
          n = call.encoding.length
      | .error .valueTooLong => ¬call.fits ∧ front = []
      | .error .bufferTooShort => call.fits ∧ before.room < call.encoding.length ∧
          ∃ rest, rest ≠ [] ∧ call.encoding = rest ++ front
      | .error (.unsupported _) => False) ∧
    before.bytes.length + before.room = capacity ∧
    after.bytes.length + after.room = capacity ∧
    ∃ memory memory', (Bare.empty capacity).performAll calls = .ok (earlier.1, memory) ∧
      memory.perform call = .ok (answer, memory') ∧ before.Shown memory ∧ after.Shown memory' := by
  intro earlier before
  have hcapacity : before.capacity = capacity :=
    ((empty capacity).capacity_performAll calls).trans (Nat.zero_add capacity)
  obtain ⟨memory, hcalls, hmemory⟩ := (behind_empty capacity).performAll calls
  obtain ⟨memory', hcall, hmemory'⟩ := hmemory.perform call
  have heffect := before.effect_perform call
  change before.Behind memory at hmemory
  change memory.perform call = .ok ((before.perform call).1, memory') at hcall
  change (before.perform call).2.Behind memory' at hmemory'
  generalize before.perform call = out at heffect hcall hmemory' ⊢
  have hafter : out.2.capacity = capacity := heffect.capacity_eq.trans hcapacity
  refine ⟨?_, hcapacity, hafter, memory, memory', hcalls, hcall, hmemory.shown, hmemory'.shown⟩
  cases heffect with
  | whole hfits hroom => exact ⟨call.encoding, rfl, hfits, hroom, rfl, rfl⟩
  | tooLong hfits => exact ⟨[], rfl, hfits, rfl⟩
  | @noRoom hfits front rest hencoding hrest hfull hroom =>
    exact ⟨front, rfl, hfits, hfull, rest, hrest, hencoding⟩

-- A number without its announcement.
example : perform ⟨[7], 2⟩ (.varNumber 300) = (.error .bufferTooShort, ⟨[1, 44, 7], 0⟩) := rfl

end FrontBuffer

end NameRelay
