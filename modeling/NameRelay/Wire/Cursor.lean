-- SUMMARY: Reading bytes from the front, with the place of each byte in the whole.
import NameRelay.Wire.Error

/-!
# Cursors

A cursor is the part of a buffer that is still unread, together with the place of its first byte
in that buffer. Each reader takes bytes off the front and returns the cursor behind them. A part
that is split off keeps its place, so a content can be located in the whole packet.
-/

namespace NameRelay

/-- A stretch of a buffer, from `start` up to but not including `stop`. -/
structure Span where
  start : Nat
  stop : Nat
  deriving DecidableEq, Repr

namespace Span

/-- The stretch moved `n` bytes towards the end. -/
def shift (s : Span) (n : Nat) : Span := ⟨s.start + n, s.stop + n⟩

/-- The bytes of `buffer` in the stretch. -/
def of (s : Span) (buffer : Bytes) : Bytes := (buffer.drop s.start).take (s.stop - s.start)

end Span

/-- The unread rest of a buffer and the place of its first byte. -/
structure Cursor where
  pos : Nat
  rest : Bytes
  deriving DecidableEq, Repr

namespace Cursor

/-- A cursor at the start of a buffer. -/
def ofBytes (bytes : Bytes) : Cursor := ⟨0, bytes⟩

/-- How many bytes are unread. -/
def remaining (c : Cursor) : Nat := c.rest.length

def isEmpty (c : Cursor) : Bool := c.rest.isEmpty

/-- The stretch that is unread. -/
def span (c : Cursor) : Span := ⟨c.pos, c.pos + c.rest.length⟩

/-- The cursor `n` bytes further on. -/
def advance (c : Cursor) (n : Nat) : Cursor := ⟨c.pos + n, c.rest.drop n⟩

/-- Takes one byte. -/
def byte : Cursor → Except DecodeError (UInt8 × Cursor)
  | ⟨_, []⟩ => .error .tooShort
  | ⟨pos, b :: rest⟩ => .ok (b, ⟨pos + 1, rest⟩)

/-- Takes a 16-bit number; a single byte that is left over is not taken. -/
def word16 : Cursor → Except DecodeError (Nat × Cursor)
  | ⟨pos, hi :: lo :: rest⟩ => .ok (hi.toNat * 256 + lo.toNat, ⟨pos + 2, rest⟩)
  | _ => .error .tooShort

/-- Splits off the next `n` bytes as a cursor of their own. -/
def split (c : Cursor) (n : Nat) : Except DecodeError (Cursor × Cursor) :=
  if n ≤ c.remaining then .ok (⟨c.pos, c.rest.take n⟩, c.advance n)
  else .error (.lengthOverrun n c.remaining)

/-- How many bytes follow the first byte of a number of variable length. -/
def varWidth (first : UInt8) : Nat :=
  if first < 253 then 0 else if first = 253 then 2 else if first = 254 then 4 else 8

/-- Takes a number of variable length: a byte below 253 is the number itself, and 253, 254 and
    255 announce two, four and eight bytes. A form wider than the number needs is accepted. -/
def varNumber : Cursor → Except DecodeError (Nat × Cursor)
  | ⟨_, []⟩ => .error .tooShort
  | ⟨pos, first :: rest⟩ =>
    if varWidth first = 0 then
      .ok (first.toNat, ⟨pos + 1, rest⟩)
    else if varWidth first ≤ rest.length then
      .ok (Bytes.value (rest.take (varWidth first)),
        ⟨pos + 1 + varWidth first, rest.drop (varWidth first)⟩)
    else
      .error .tooShort

-- ---------------------------------------------------------------------------
-- Progress: a reader that succeeds leaves less to read
-- ---------------------------------------------------------------------------

theorem byte_lt {c c' : Cursor} {b : UInt8} (h : c.byte = .ok (b, c')) :
    c'.rest.length < c.rest.length := by
  rcases c with ⟨pos, _ | ⟨x, xs⟩⟩
  · simp [byte] at h
  · simp only [byte, Except.ok.injEq, Prod.mk.injEq] at h
    simp [← h.2]

theorem word16_lt {c c' : Cursor} {n : Nat} (h : c.word16 = .ok (n, c')) :
    c'.rest.length < c.rest.length := by
  rcases c with ⟨pos, _ | ⟨x, _ | ⟨y, xs⟩⟩⟩
  · simp [word16] at h
  · simp [word16] at h
  · simp only [word16, Except.ok.injEq, Prod.mk.injEq] at h
    simp only [← h.2, List.length_cons]
    omega

theorem split_le {c inner c' : Cursor} {n : Nat} (h : c.split n = .ok (inner, c')) :
    c'.rest.length ≤ c.rest.length := by
  unfold split at h
  split at h
  · simp only [Except.ok.injEq, Prod.mk.injEq] at h
    simp [← h.2, advance]
  · simp at h

theorem varNumber_lt {c c' : Cursor} {n : Nat} (h : c.varNumber = .ok (n, c')) :
    c'.rest.length < c.rest.length := by
  rcases c with ⟨pos, _ | ⟨first, rest⟩⟩
  · simp [varNumber] at h
  · simp only [varNumber] at h
    split at h
    · simp only [Except.ok.injEq, Prod.mk.injEq] at h
      simp [← h.2]
    · split at h
      · simp only [Except.ok.injEq, Prod.mk.injEq] at h
        simp only [← h.2, List.length_drop, List.length_cons]
        omega
      · simp at h

theorem varNumber_pos {c c' : Cursor} {n : Nat} (h : c.varNumber = .ok (n, c')) :
    c.pos < c'.pos := by
  rcases c with ⟨pos, _ | ⟨first, rest⟩⟩
  · simp [varNumber] at h
  · simp only [varNumber] at h
    split at h
    · simp only [Except.ok.injEq, Prod.mk.injEq] at h
      simp [← h.2]
    · split at h
      · simp only [Except.ok.injEq, Prod.mk.injEq] at h
        simp only [← h.2]
        omega
      · simp at h

end Cursor

end NameRelay
