-- SUMMARY: Type-length-value elements, read in order up to the first fault.
import NameRelay.Wire.Cursor
import NameRelay.Wire.FrontBuffer

/-!
# Type-length-value elements

Three ways to write the type and the length of an element are in use. Each is a `Tlv.Head`: a
reader together with the fact that it always takes something, which is why reading a sequence of
elements ends.

A sequence is read as `Elements`: the elements in order and, if the bytes go wrong, the fault
behind them. A decoder folds over the elements and meets the fault last, so that of two errors the
one that stands first in the bytes wins.
-/

namespace NameRelay.Tlv

/-- One element: its type, a cursor over its value, and all its bytes with the head in front. -/
structure Element where
  type : Nat
  value : Cursor
  wire : Bytes
  deriving DecidableEq, Repr

namespace Element

/-- The number of bytes of the value. -/
def length (e : Element) : Nat := e.value.remaining

/-- The value as a 64-bit number; more than eight bytes are an error. -/
def word (e : Element) : Except DecodeError UInt64 :=
  match e.value.rest.word? with
  | some n => .ok n
  | none => .error (.malformed .integerTooLong)

/-- The value as a 32-bit number, none if it is a larger one. -/
def word32? (e : Element) : Except DecodeError (Option UInt32) :=
  e.word.map fun n => NameRelay.word32? n.toNat

end Element

/-- How the type and the length of an element are written. -/
structure Head where
  /-- Takes the type and the length. -/
  read : Cursor → Except DecodeError ((Nat × Nat) × Cursor)
  /-- A head has at least one byte. -/
  shrinks : ∀ {c tl c'}, read c = .ok (tl, c') → c'.rest.length < c.rest.length

namespace Head

/-- Takes the type and the length as two numbers of one form. -/
def readPair (number : Cursor → Except DecodeError (Nat × Cursor)) (c : Cursor) :
    Except DecodeError ((Nat × Nat) × Cursor) := do
  let (type, c) ← number c
  let (length, c) ← number c
  return ((type, length), c)

/-- A pair takes something if each of its numbers does. -/
theorem readPair_lt {number : Cursor → Except DecodeError (Nat × Cursor)}
    (number_lt : ∀ {c c' : Cursor} {n : Nat},
      number c = .ok (n, c') → c'.rest.length < c.rest.length)
    {c c' : Cursor} {tl : Nat × Nat} (h : readPair number c = .ok (tl, c')) :
    c'.rest.length < c.rest.length := by
  cases h1 : number c with
  | error e => simp [readPair, h1, bind, Except.bind] at h
  | ok r =>
    cases h2 : number r.2 with
    | error e => simp [readPair, h1, h2, bind, Except.bind] at h
    | ok s =>
      simp only [readPair, h1, h2, bind, Except.bind, pure, Except.pure, Except.ok.injEq,
        Prod.mk.injEq] at h
      have := number_lt h1
      have := number_lt h2
      rw [← h.2]
      omega

/-- Type and length are two 16-bit numbers. -/
def fixed : Head := ⟨readPair Cursor.word16, readPair_lt Cursor.word16_lt⟩

/-- Type and length are two numbers of variable length. -/
def flexible : Head := ⟨readPair Cursor.varNumber, readPair_lt Cursor.varNumber_lt⟩

/-- Takes a two-bit type above a six-bit length from one byte, or the flexible form from behind a
    zero byte. -/
def readCompact (c : Cursor) : Except DecodeError ((Nat × Nat) × Cursor) := do
  let (first, c) ← c.byte
  if first ≠ 0 then
    return ((first.toNat / 64, first.toNat % 64), c)
  else
    flexible.read c

theorem readCompact_lt {c c' : Cursor} {tl : Nat × Nat} (h : readCompact c = .ok (tl, c')) :
    c'.rest.length < c.rest.length := by
  cases h1 : c.byte with
  | error e => simp [readCompact, h1, bind, Except.bind] at h
  | ok r =>
    have hb := Cursor.byte_lt h1
    simp only [readCompact, h1, bind, Except.bind, pure, Except.pure] at h
    split at h
    · simp only [Except.ok.injEq, Prod.mk.injEq] at h
      rw [← h.2]
      exact hb
    · exact Nat.lt_trans (flexible.shrinks h) hb

/-- One byte with a two-bit type above a six-bit length; a zero byte announces two numbers of
    variable length instead. -/
def compact : Head := ⟨readCompact, readCompact_lt⟩

/-- Takes one element. -/
def element (head : Head) (c : Cursor) : Except DecodeError (Element × Cursor) := do
  let ((type, length), inner) ← head.read c
  let (value, next) ← inner.split length
  return (⟨type, value, c.rest.take (next.pos - c.pos)⟩, next)

theorem element_lt (head : Head) {c c' : Cursor} {e : Element}
    (h : head.element c = .ok (e, c')) : c'.rest.length < c.rest.length := by
  cases h1 : head.read c with
  | error e => simp [element, h1, bind, Except.bind] at h
  | ok r =>
    cases h2 : r.2.split r.1.2 with
    | error e => simp [element, h1, h2, bind, Except.bind] at h
    | ok s =>
      simp only [element, h1, h2, bind, Except.bind, pure, Except.pure, Except.ok.injEq,
        Prod.mk.injEq] at h
      have := head.shrinks h1
      have := Cursor.split_le h2
      rw [← h.2]
      omega

end Head

/-- Elements in the order of their bytes, and the fault that ends them, if one does. -/
structure Elements where
  items : List Element
  fault : Option DecodeError
  deriving DecidableEq, Repr

namespace Elements

/-- Folds over the elements and fails with the first error: of a step, or of the bytes behind the
    last element. -/
def foldM {σ : Type} (es : Elements) (s : σ) (step : σ → Element → Except DecodeError σ) :
    Except DecodeError σ := do
  let s ← es.items.foldlM step s
  match es.fault with
  | none => return s
  | some e => throw e

end Elements

/-- Reads elements until no byte is left. -/
def Head.elements (head : Head) (c : Cursor) : Elements :=
  if c.isEmpty then ⟨[], none⟩
  else match _h : head.element c with
    | .error e => ⟨[], some e⟩
    | .ok (e, next) =>
      let more := head.elements next
      ⟨e :: more.items, more.fault⟩
termination_by c.rest.length
decreasing_by exact head.element_lt _h

-- ---------------------------------------------------------------------------
-- Writing
-- ---------------------------------------------------------------------------

/-- Writes the head of an element with numbers of variable length. -/
def writeHead (type length : Nat) : Write Unit := do
  Write.varNumber length
  Write.varNumber type

/-- Writes a compact head: one byte where type and length fit it, but never the zero byte that
    announces the long form nor the mark of an encoding switch. -/
def writeCompactHead (type length : Nat) : Write Unit := do
  if type < 4 ∧ length < 64 ∧ (type, length) ≠ (0, 0) ∧ (type, length) ≠ (2, 0) then
    Write.byte (UInt8.ofNat (type * 64 + length))
  else
    writeHead type length
    Write.byte 0

end NameRelay.Tlv
