-- SUMMARY: The tokens of CCNB: element headers, closers, and what lies between them.
import NameRelay.Wire.Cursor
import NameRelay.Wire.FrontBuffer

/-!
# CCNB tokens

CCNB nests elements. A header holds a number and a three-bit kind: tagged elements run until the
zero byte that closes them, data elements (blobs and text) carry as many bytes as the number says.
A header spreads its number over several bytes, seven bits each, of which only the last has its
high bit set and gives four bits and the kind.

The value of a tagged element is its last data element, however deep it is nested.
-/

namespace NameRelay.Ccnb

/-- The kinds of element. -/
def tagKind : Nat := 2
def attributeKind : Nat := 4
def blobKind : Nat := 5
def textKind : Nat := 6

/-- The most bytes of a header. -/
def maxHeaderBytes : Nat := 8

/-- How deep elements may nest. -/
def maxDepth : Nat := 32

/-- What a header byte begins. -/
inductive Token where
  /-- The end of the innermost open element. -/
  | close
  | element (number kind : Nat)
  deriving DecidableEq, Repr

/-- Reads the rest of a header whose earlier bytes gave `number`, from at most `fuel` bytes more
    and the byte `b`. -/
def headerFrom : Nat → Nat → UInt8 → Cursor → Except DecodeError (Token × Cursor)
  | 0, _, _, _ => .error (.malformed .headerTooLong)
  | fuel + 1, number, b, c =>
    if 128 ≤ b.toNat then
      .ok (.element (number * 16 + b.toNat / 8 % 16) (b.toNat % 8), c)
    else
      match c.byte with
      | .error e => .error e
      | .ok (next, c) => headerFrom fuel (number * 128 + b.toNat) next c

/-- Takes a header or a closing byte. -/
def token (c : Cursor) : Except DecodeError (Token × Cursor) :=
  match c.byte with
  | .error e => .error e
  | .ok (b, c) => if b = 0 then .ok (.close, c) else headerFrom maxHeaderBytes 0 b c

theorem headerFrom_le {fuel number : Nat} {b : UInt8} {c c' : Cursor} {t : Token}
    (h : headerFrom fuel number b c = .ok (t, c')) : c'.rest.length ≤ c.rest.length := by
  induction fuel generalizing number b c with
  | zero => simp [headerFrom] at h
  | succ fuel ih =>
    simp only [headerFrom] at h
    split at h
    · simp only [Except.ok.injEq, Prod.mk.injEq] at h
      exact Nat.le_of_eq (by rw [h.2])
    · split at h
      · simp at h
      · next hb => exact Nat.le_trans (ih h) (Nat.le_of_lt (Cursor.byte_lt hb))

theorem token_lt {c c' : Cursor} {t : Token} (h : token c = .ok (t, c')) :
    c'.rest.length < c.rest.length := by
  unfold token at h
  split at h
  · simp at h
  · next hb =>
    have := Cursor.byte_lt hb
    split at h
    · simp only [Except.ok.injEq, Prod.mk.injEq] at h
      rw [← h.2]
      exact this
    · exact Nat.lt_of_le_of_lt (headerFrom_le h) this

-- ---------------------------------------------------------------------------
-- Whole elements
-- ---------------------------------------------------------------------------

/-- Reads up to the end of an element. `depth` is the nesting at which the element stands and
    `inner` the number of elements that are open inside it; `last` is the last data so far. -/
def untilClosed (depth inner : Nat) (last : Option Span) (c : Cursor) :
    Except DecodeError (Option Span × Cursor) :=
  match _h : token c with
  | .error e => .error e
  | .ok (.close, next) =>
    match inner with
    | 0 => .ok (last, next)
    | inner + 1 => untilClosed depth inner last next
  | .ok (.element number kind, next) =>
    if kind = blobKind ∨ kind = textKind then
      match _hs : next.split number with
      | .error e => .error e
      | .ok (data, next) => untilClosed depth inner (some data.span) next
    else if kind = tagKind ∨ kind = attributeKind then
      if depth + inner + 1 > maxDepth then .error (.malformed .nestingTooDeep)
      else untilClosed depth (inner + 1) last next
    else
      .error (.malformed .unsupportedToken)
termination_by c.rest.length
decreasing_by
  all_goals have := token_lt _h
  · exact this
  · exact Nat.lt_of_le_of_lt (Cursor.split_le _hs) this
  · exact this

/-- Reads to the end of a tagged element at nesting `depth`; the answer is where its value
    stands. -/
def value (depth : Nat) (c : Cursor) : Except DecodeError (Option Span × Cursor) :=
  untilClosed depth 0 none c

/-- Reads an element of any kind that stands inside an element at nesting `depth`, header already
    taken. -/
def skip (depth number kind : Nat) (c : Cursor) : Except DecodeError Cursor := do
  if kind = blobKind ∨ kind = textKind then
    return (← c.split number).2
  else if kind = tagKind ∨ kind = attributeKind then
    return (← value (depth + 1) c).2
  else
    throw (.malformed .unsupportedToken)

theorem untilClosed_le {depth inner : Nat} {last v : Option Span} {c c' : Cursor}
    (h : untilClosed depth inner last c = .ok (v, c')) : c'.rest.length ≤ c.rest.length := by
  fun_induction untilClosed depth inner last c with
  | case1 => simp at h
  | case2 last c next ht =>
    simp only [Except.ok.injEq, Prod.mk.injEq] at h
    rw [← h.2]
    exact Nat.le_of_lt (token_lt ht)
  | case3 last c next ht inner ih => exact Nat.le_trans (ih h) (Nat.le_of_lt (token_lt ht))
  | case4 => simp at h
  | case5 _ _ _ _ _ _ ht _ _ _ hs ih =>
    exact Nat.le_trans (ih h) (Nat.le_trans (Cursor.split_le hs) (Nat.le_of_lt (token_lt ht)))
  | case6 => simp at h
  | case7 _ _ _ _ _ _ ht _ _ _ ih => exact Nat.le_trans (ih h) (Nat.le_of_lt (token_lt ht))
  | case8 => simp at h

theorem value_le {depth : Nat} {v : Option Span} {c c' : Cursor} (h : value depth c = .ok (v, c')) :
    c'.rest.length ≤ c.rest.length := untilClosed_le h

theorem skip_le {depth number kind : Nat} {c c' : Cursor} (h : skip depth number kind c = .ok c') :
    c'.rest.length ≤ c.rest.length := by
  unfold skip at h
  split at h
  · cases hs : c.split number with
    | error e => simp [hs, bind, Except.bind] at h
    | ok r =>
      simp only [hs, bind, Except.bind, pure, Except.pure, Except.ok.injEq] at h
      rw [← h]
      exact Cursor.split_le hs
  · split at h
    · cases hv : value (depth + 1) c with
      | error e => simp [hv, bind, Except.bind] at h
      | ok r =>
        simp only [hv, bind, Except.bind, pure, Except.pure, Except.ok.injEq] at h
        rw [← h]
        exact value_le hv
    · simp [throw, throwThe, MonadExceptOf.throw] at h

-- ---------------------------------------------------------------------------
-- Writing
-- ---------------------------------------------------------------------------

/-- The leading bytes of a header for the part of its number above the four low bits, lowest
    first. -/
def writeHighBits (n : Nat) : Write Unit :=
  if n = 0 then pure ()
  else do
    Write.byte (UInt8.ofNat (n % 128))
    writeHighBits (n / 128)
termination_by n
decreasing_by omega

/-- Writes a header. -/
def writeHeader (number kind : Nat) : Write Unit := do
  Write.byte (UInt8.ofNat (128 + number % 16 * 8 + kind))
  writeHighBits (number / 16)

/-- Writes a tagged element that holds one data element. -/
def writeField (tag kind : Nat) (value : Bytes) : Write Unit := do
  Write.byte 0
  Write.bytes value
  writeHeader value.length kind
  writeHeader tag tagKind

end NameRelay.Ccnb
