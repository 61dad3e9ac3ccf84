-- SUMMARY: Readers take their bytes off the front, and what stands behind them makes no difference.
import NameRelay.Proofs.Wire.Elements
import NameRelay.Wire.FixedHeader

/-!
# Readers and the bytes behind them

A reader that succeeds has taken some bytes off the front of its cursor, and it takes the same bytes
with the same result whatever follows them. `Cursor.Frames` says so of a reader at a cursor. It holds
of each reader of a single number and passes from readers to their sequence, so it is followed
through a whole format without a look at any length. Elements are read with their values in place,
and a fixed header gives lengths that fit the bytes.
-/

namespace NameRelay

/-- A sequence that succeeds has a first part that succeeds. -/
theorem ok_of_bind {ε α β : Type} {first : Except ε α} {next : α → Except ε β} {b : β}
    (h : first >>= next = .ok b) : ∃ a, first = .ok a ∧ next a = .ok b := by
  cases first with
  | error e => cases h
  | ok a => exact ⟨a, rfl, h⟩

/-- Sequences with the same first part agree if they agree on what it gives. -/
theorem bind_congr_ok {ε α β : Type} {first : Except ε α} {next other : α → Except ε β}
    (h : ∀ a, first = .ok a → next a = other a) : first >>= next = first >>= other := by
  cases first with
  | error e => rfl
  | ok a => exact h a rfl

namespace Cursor

/-- Where the unread bytes end. -/
def stop (c : Cursor) : Nat := c.pos + c.rest.length

/-- At this cursor the reader, if it succeeds, takes bytes off the front, and the same with other
    bytes behind them. -/
def Frames {α : Type} (read : Cursor → Except DecodeError (α × Cursor)) (c : Cursor) : Prop :=
  ∀ ⦃a : α⦄ ⦃after : Cursor⦄, read c = .ok (a, after) → ∃ taken, c.rest = taken ++ after.rest ∧
    ∀ more, read ⟨c.pos, taken ++ more⟩ = .ok (a, ⟨c.pos + taken.length, more⟩)

namespace Frames

variable {α β : Type} {read : Cursor → Except DecodeError (α × Cursor)} {c after : Cursor} {a : α}

/-- The cursor behind the bytes that were taken. -/
theorem after_eq {taken : Bytes} (h : read c = .ok (a, after)) (hrest : c.rest = taken ++ after.rest)
    (hmore : ∀ more, read ⟨c.pos, taken ++ more⟩ = .ok (a, ⟨c.pos + taken.length, more⟩)) :
    after = ⟨c.pos + taken.length, after.rest⟩ := by
  have hsame := hmore after.rest
  rw [← hrest, h] at hsame
  exact congrArg Prod.snd (Except.ok.inj hsame)

/-- Reading does not move the end of the bytes. -/
theorem stop_eq (hread : Frames read c) (h : read c = .ok (a, after)) : after.stop = c.stop := by
  obtain ⟨taken, hrest, hmore⟩ := hread h
  have hpos := congrArg Cursor.pos (after_eq h hrest hmore)
  rw [stop, stop, hrest, List.length_append, hpos]
  exact Nat.add_assoc _ _ _

/-- What is left unread keeps its place. -/
theorem after_in (hread : Frames read c) (h : read c = .ok (a, after)) {whole : Bytes}
    (hin : c.In whole) : after.In whole := by
  obtain ⟨taken, hrest, hmore⟩ := hread h
  obtain ⟨pos, rest⟩ := c
  dsimp only at hrest
  subst hrest
  rw [after_eq h rfl hmore]
  exact hin.drop

theorem error (e : DecodeError) : Frames (fun _ => .error e : Cursor → Except _ (α × Cursor)) c := by
  intro a after h
  cases h

theorem pure (a : α) : Frames (fun c => .ok (a, c)) c := by
  intro b after h
  cases h
  exact ⟨[], rfl, fun more => rfl⟩

/-- Readers in sequence. -/
theorem bind {next : α × Cursor → Except DecodeError (β × Cursor)} (hread : Frames read c)
    (hnext : ∀ ⦃a after⦄, read c = .ok (a, after) → Frames (fun c => next (a, c)) after) :
    Frames (fun c => read c >>= next) c := by
  intro b last h
  obtain ⟨⟨a, after⟩, hfirst, hsecond⟩ := ok_of_bind h
  obtain ⟨front, hfront, hagain⟩ := hread hfirst
  obtain ⟨back, hback, hrest⟩ := hnext hfirst hsecond
  have hpos : after.pos = c.pos + front.length :=
    congrArg Cursor.pos (after_eq hfirst hfront hagain)
  refine ⟨front ++ back, by rw [hfront, hback, List.append_assoc], fun more => ?_⟩
  have hmore := hrest more
  rw [hpos] at hmore
  rw [List.append_assoc, List.length_append, ← Nat.add_assoc, ← hmore]
  simp only [hagain]
  rfl

/-- A part that takes nothing decides what is read. -/
theorem lift {x : Except DecodeError β} {next : β → Cursor → Except DecodeError (α × Cursor)}
    (hnext : ∀ ⦃b⦄, x = .ok b → Frames (next b) c) : Frames (fun c => x >>= fun b => next b c) c := by
  cases x with
  | error e => exact error e
  | ok b => exact hnext rfl

/-- A reader without a result stands in front of another. -/
theorem behind {skip : Cursor → Except DecodeError Cursor}
    {next : Cursor → Except DecodeError (α × Cursor)}
    (hskip : Frames (fun c => (skip c).map ((), ·)) c)
    (hnext : ∀ ⦃after⦄, skip c = .ok after → Frames next after) :
    Frames (fun c => skip c >>= next) c := by
  have heq : (fun c => skip c >>= next) = fun c => (skip c).map ((), ·) >>= fun r => next r.2 := by
    funext c
    cases skip c <;> rfl
  rw [heq]
  refine hskip.bind fun _ after h => hnext ?_
  cases hc : skip c with
  | error e =>
    rw [hc] at h
    cases h
  | ok next =>
    rw [hc] at h
    cases h
    rfl

/-- A condition that does not look at the bytes picks the reader. -/
theorem ite {p : Prop} [Decidable p] {other : Cursor → Except DecodeError (α × Cursor)}
    (hthen : p → Frames read c) (helse : ¬p → Frames other c) :
    Frames (fun c => if p then read c else other c) c := by
  by_cases hp : p
  · simp only [hp, if_true]
    exact hthen hp
  · simp only [hp, if_false]
    exact helse hp

end Frames

/-! ## Single numbers -/

theorem frames_byte (c : Cursor) : Frames byte c := by
  intro b after h
  rcases c with ⟨pos, _ | ⟨first, rest⟩⟩
  · cases h
  · cases h
    exact ⟨[b], rfl, fun more => rfl⟩

theorem frames_word16 (c : Cursor) : Frames word16 c := by
  intro n after h
  rcases c with ⟨pos, _ | ⟨hi, _ | ⟨lo, rest⟩⟩⟩
  · cases h
  · cases h
  · cases h
    exact ⟨[hi, lo], rfl, fun more => rfl⟩

/-- The part that is split off is all that is taken. -/
theorem split_eq {c part after : Cursor} {n : Nat} (h : c.split n = .ok (part, after)) :
    part.pos = c.pos ∧ c.rest = part.rest ++ after.rest ∧ part.rest.length = n ∧
      after.pos = c.pos + n := by
  unfold split at h
  split at h
  · rename_i hroom
    cases h
    refine ⟨rfl, (List.take_append_drop n c.rest).symm, ?_, rfl⟩
    exact List.length_take_of_le hroom
  · cases h

/-- A part that is split off has its place. -/
theorem split_in {c part after : Cursor} {n : Nat} (h : c.split n = .ok (part, after))
    {whole : Bytes} (hin : c.In whole) : part.In whole := by
  obtain ⟨hpos, hrest, -, -⟩ := split_eq h
  obtain ⟨front, back, hwhole, hfront⟩ := hin
  refine ⟨front, after.rest ++ back, ?_, hpos.trans hfront⟩
  rw [hwhole, hrest]
  simp only [List.append_assoc]

/-- As many bytes as stand in front are split off. -/
theorem split_append (pos : Nat) (part more : Bytes) :
    (⟨pos, part ++ more⟩ : Cursor).split part.length =
      .ok (⟨pos, part⟩, ⟨pos + part.length, more⟩) := by
  have hroom : part.length ≤ (part ++ more).length := (List.prefix_append part more).length_le
  simp only [split, remaining, if_pos hroom, advance, List.take_left, List.drop_left]

theorem frames_split (n : Nat) (c : Cursor) : Frames (fun c => c.split n) c := by
  intro part after h
  obtain ⟨hpos, hrest, rfl, -⟩ := split_eq h
  refine ⟨part.rest, hrest, fun more => ?_⟩
  have hpart : (⟨c.pos, part.rest⟩ : Cursor) = part := by rw [← hpos]
  have hsplit := split_append c.pos part.rest more
  rwa [hpart] at hsplit

theorem frames_varNumber (c : Cursor) : Frames varNumber c := by
  intro n after h
  rcases c with ⟨pos, _ | ⟨first, rest⟩⟩
  · cases h
  simp only [varNumber] at h
  by_cases hshort : varWidth first = 0
  · rw [if_pos hshort] at h
    cases h
    refine ⟨[first], rfl, fun more => ?_⟩
    simp only [List.singleton_append, varNumber, if_pos hshort, List.length_singleton]
  · rw [if_neg hshort] at h
    split at h
    · rename_i hroom
      cases h
      have hlength := List.length_take_of_le hroom
      refine ⟨first :: rest.take (varWidth first), ?_, fun more => ?_⟩
      · rw [List.cons_append, List.take_append_drop]
      · have hroom' : varWidth first ≤ (rest.take (varWidth first) ++ more).length := by
          rw [List.length_append]
          omega
        simp only [List.cons_append, varNumber, if_neg hshort, if_pos hroom',
          List.take_left' hlength, List.drop_left' hlength, List.length_cons, hlength]
        congr 3
        omega
    · cases h

end Cursor

/-! ## Elements -/

namespace Tlv

open Cursor (Frames)

namespace Head

theorem frames_readPair {number : Cursor → Except DecodeError (Nat × Cursor)}
    (hnumber : ∀ c, Frames number c) (c : Cursor) : Frames (readPair number) c :=
  (hnumber c).bind fun _ _ _ => (hnumber _).bind fun _ _ _ => Frames.pure _

theorem frames_fixed (c : Cursor) : Frames fixed.read c := frames_readPair Cursor.frames_word16 c

theorem frames_flexible (c : Cursor) : Frames flexible.read c :=
  frames_readPair Cursor.frames_varNumber c

theorem frames_compact (c : Cursor) : Frames compact.read c := by
  have hparts (first : UInt8) (c : Cursor) : Frames (fun c =>
      if first ≠ 0 then .ok ((first.toNat / 64, first.toNat % 64), c) else flexible.read c) c :=
    Frames.ite (fun _ => Frames.pure _) fun _ => frames_flexible c
  exact (Cursor.frames_byte c).bind fun first after _ => hparts first after

/-- A fixed head that was read is what is written for its numbers. -/
theorem eq_of_read_fixed {c inner : Cursor} {type length : Nat}
    (h : fixed.read c = .ok ((type, length), inner)) :
    c.rest = bigEndian 2 type ++ bigEndian 2 length ++ inner.rest ∧ type < 0x10000 ∧
      length < 0x10000 := by
  rcases c with ⟨pos, _ | ⟨a, _ | ⟨b, _ | ⟨x, _ | ⟨y, rest⟩⟩⟩⟩⟩
  case cons.cons.cons.cons =>
    cases h
    have ha := a.toNat_lt
    have hb := b.toNat_lt
    have hx := x.toNat_lt
    have hy := y.toNat_lt
    rw [bigEndian_word16, bigEndian_word16]
    exact ⟨rfl, by omega, by omega⟩
  all_goals cases h

variable {head : Head} {c after : Cursor} {e : Element}

/-- An element is cut out with its value behind its head. The head alone says how much is cut out, so
    any value of this length in its place, and any bytes behind, are read in the same way. -/
theorem element_cut (hhead : ∀ c, Frames head.read c) (h : head.element c = .ok (e, after)) :
    ∃ front, front ≠ [] ∧ e.wire = front ++ e.value.rest ∧ e.value.pos = c.pos + front.length ∧
      c.rest = e.wire ++ after.rest ∧
      ∀ value more : Bytes, value.length = e.value.rest.length →
        head.element ⟨c.pos, front ++ value ++ more⟩ =
          .ok (⟨e.type, ⟨e.value.pos, value⟩, front ++ value⟩,
            ⟨e.value.pos + value.length, more⟩) := by
  obtain ⟨⟨⟨type, length⟩, inner⟩, hread, hvalue⟩ := ok_of_bind h
  obtain ⟨⟨value, next⟩, hsplit, hend⟩ := ok_of_bind hvalue
  obtain ⟨front, hfront, hagain⟩ := hhead c hread
  obtain ⟨hpos, hrest, hlength, hnext⟩ := Cursor.split_eq hsplit
  have hinner : inner.pos = c.pos + front.length :=
    congrArg Cursor.pos (Frames.after_eq hread hfront hagain)
  have hall : c.rest = front ++ value.rest ++ next.rest := by
    rw [hfront, hrest, List.append_assoc]
  cases hend
  have hwidth : after.pos - c.pos = (front ++ value.rest).length := by
    rw [hnext, hinner, List.length_append]
    omega
  have hwire : c.rest.take (after.pos - c.pos) = front ++ value.rest := by
    rw [hall, hwidth]
    exact List.take_left
  refine ⟨front, ?_, hwire, hpos.trans hinner, ?_, fun other more hother => ?_⟩
  · rintro rfl
    have hshrinks := head.shrinks hread
    rw [hfront] at hshrinks
    exact absurd hshrinks (Nat.lt_irrefl _)
  · rw [hwire, hall]
  · replace hother : other.length = length := hother.trans hlength
    have hread' := hagain (other ++ more)
    have hvalue' := Cursor.split_append (c.pos + front.length) other more
    rw [hother] at hvalue'
    rw [← List.append_assoc] at hread'
    have htake : (front ++ other ++ more).take (c.pos + front.length + length - c.pos) =
        front ++ other := by
      apply List.take_left'
      rw [List.length_append]
      omega
    simp only [element, hread', hvalue', bind, Except.bind, htake, hpos, hinner, hother]
    rfl

/-- An element is cut out with its value behind its head, and the same whatever follows it. -/
theorem element_eq (hhead : ∀ c, Frames head.read c) (h : head.element c = .ok (e, after)) :
    ∃ front, front ≠ [] ∧ e.wire = front ++ e.value.rest ∧ e.value.pos = c.pos + front.length ∧
      c.rest = e.wire ++ after.rest ∧
      ∀ more, head.element ⟨c.pos, e.wire ++ more⟩ = .ok (e, ⟨c.pos + e.wire.length, more⟩) := by
  obtain ⟨front, hfront, hwire, hpos, hrest, hcut⟩ := element_cut hhead h
  refine ⟨front, hfront, hwire, hpos, hrest, fun more => ?_⟩
  have hsame : (⟨e.type, e.value, front ++ e.value.rest⟩ : Element) = e := by rw [← hwire]
  rw [hwire, hcut e.value.rest more rfl, hsame, hpos, List.length_append, Nat.add_assoc]

/-- The value of an element and what follows the element are in their places if the bytes are. -/
theorem element_in (hhead : ∀ c, Frames head.read c) (h : head.element c = .ok (e, after))
    {whole : Bytes} (hin : c.In whole) : e.value.In whole ∧ after.In whole := by
  obtain ⟨front, -, hwire, hpos, hrest, hmore⟩ := element_eq hhead h
  have hafter : after.pos = c.pos + e.wire.length :=
    congrArg Cursor.pos (Frames.after_eq h hrest hmore)
  obtain ⟨before, behind, hwhole, hbefore⟩ := hin
  rw [hrest, hwire] at hwhole
  refine ⟨⟨before ++ front, after.rest ++ behind, ?_, ?_⟩, before ++ e.wire, behind, ?_, ?_⟩
  · simp only [hwhole, List.append_assoc]
  · rw [hpos, hbefore, List.length_append]
  · simp only [hwhole, hwire, List.append_assoc]
  · rw [hafter, hbefore, List.length_append]

/-- The first element of some bytes takes a front of them, in which its value has its place. -/
theorem element_front (hhead : ∀ c, Frames head.read c) {bytes : Bytes}
    (h : head.element (.ofBytes bytes) = .ok (e, after)) :
    bytes = e.wire ++ after.rest ∧ after = ⟨e.wire.length, after.rest⟩ ∧ e.wire ≠ [] ∧
      e.value.In e.wire ∧
      ∀ more, head.element (.ofBytes (e.wire ++ more)) = .ok (e, ⟨e.wire.length, more⟩) := by
  obtain ⟨front, hfront, hwire, hpos, hrest, hmore⟩ := element_eq hhead h
  have hafter := Frames.after_eq h hrest hmore
  simp only [Cursor.ofBytes, Nat.zero_add] at hpos hrest hmore hafter
  refine ⟨hrest, hafter, ?_, ⟨front, [], ?_, hpos⟩, hmore⟩
  · rw [hwire]
    exact List.append_ne_nil_of_left_ne_nil hfront _
  · rw [List.append_nil, hwire]

/-- Every element of a sequence is read somewhere. -/
theorem element_of_mem_elements (h : e ∈ (head.elements c).items) :
    ∃ start next, head.element start = .ok (e, next) := by
  fun_induction head.elements c with
  | case1 => cases h
  | case2 => cases h
  | case3 c _ first next hfirst more ih =>
    rcases List.mem_cons.1 h with rfl | hmore
    · exact ⟨c, next, hfirst⟩
    · exact ih hmore

/-- The value of every element of a sequence is in its place if the sequence is. -/
theorem value_in_of_mem_elements (hhead : ∀ c, Frames head.read c) {whole : Bytes}
    (hin : c.In whole) (h : e ∈ (head.elements c).items) : e.value.In whole := by
  fun_induction head.elements c with
  | case1 => cases h
  | case2 => cases h
  | case3 c _ first next hfirst more ih =>
    obtain ⟨hvalue, hnext⟩ := element_in hhead hfirst hin
    rcases List.mem_cons.1 h with rfl | hmore
    · exact hvalue
    · exact ih hnext hmore

end Head

/-- What every step over an element of the sequence keeps holds at the end of the fold. -/
theorem Elements.foldM_keeps {σ : Type} (keeps : σ → Prop) {es : Elements}
    {step : σ → Element → Except DecodeError σ}
    (hstep : ∀ e ∈ es.items, ∀ s s', keeps s → step s e = .ok s' → keeps s') {s s' : σ}
    (hstart : keeps s) (h : es.foldM s step = .ok s') : keeps s' := by
  have hitems (items : List Element) (hmem : ∀ e ∈ items, e ∈ es.items) (s last : σ)
      (hs : keeps s) (hfold : items.foldlM step s = .ok last) : keeps last := by
    induction items generalizing s with
    | nil =>
      cases hfold
      exact hs
    | cons e items ih =>
      obtain ⟨mid, hmid, hrest⟩ := ok_of_bind hfold
      exact ih (fun e he => hmem e (List.mem_cons_of_mem _ he)) mid
        (hstep e (hmem e List.mem_cons_self) s mid hs hmid) hrest
  obtain ⟨last, hfold, hend⟩ := ok_of_bind h
  cases hfault : es.fault with
  | none =>
    rw [hfault] at hend
    cases hend
    exact hitems es.items (fun _ he => he) s s' hstart hfold
  | some e =>
    rw [hfault] at hend
    cases hend

/-- A fold commutes with changes of the state and of the elements with which each step commutes. -/
theorem Elements.foldM_map {σ τ : Type} (es : Elements) {step : σ → Element → Except DecodeError σ}
    {step' : τ → Element → Except DecodeError τ} (f : σ → τ) (g : Element → Element)
    (hstep : ∀ e ∈ es.items, ∀ s, step' (f s) (g e) = (step s e).map f) (s : σ) :
    Elements.foldM ⟨es.items.map g, es.fault⟩ (f s) step' = (es.foldM s step).map f := by
  obtain ⟨items, fault⟩ := es
  dsimp only at hstep
  have hitems : (items.map g).foldlM step' (f s) = (items.foldlM step s).map f := by
    induction items generalizing s with
    | nil => rfl
    | cons e items ih =>
      rw [List.map_cons, List.foldlM_cons, List.foldlM_cons, hstep e List.mem_cons_self]
      cases step s e with
      | error e => rfl
      | ok mid => exact ih mid fun e he => hstep e (List.mem_cons_of_mem _ he)
  simp only [foldM, hitems]
  cases items.foldlM step s with
  | error e => rfl
  | ok last =>
    cases fault with
    | none => rfl
    | some e => rfl

end Tlv

/-! ## Stretches -/

namespace Span

/-- The stretch lies in a buffer of so many bytes. -/
def Within (s : Span) (n : Nat) : Prop := s.start ≤ s.stop ∧ s.stop ≤ n

theorem Within.mono {s : Span} {m n : Nat} (h : s.Within m) (hle : m ≤ n) : s.Within n :=
  ⟨h.1, Nat.le_trans h.2 hle⟩

theorem Within.shift {s : Span} {n : Nat} (h : s.Within n) (k : Nat) :
    (s.shift k).Within (k + n) := by
  obtain ⟨hstart, hstop⟩ := h
  simp only [Within, Span.shift]
  omega

/-- Bytes behind a buffer do not change what its stretches hold. -/
theorem Within.of_append {s : Span} {buffer : Bytes} (h : s.Within buffer.length) (behind : Bytes) :
    s.of (buffer ++ behind) = s.of buffer := by
  obtain ⟨hstart, hstop⟩ := h
  have hdrop : s.start ≤ buffer.length := by omega
  have htake : s.stop - s.start ≤ (buffer.drop s.start).length := by
    rw [List.length_drop]
    omega
  rw [Span.of, Span.of, List.drop_append_of_le_length hdrop, List.take_append_of_le_length htake]

end Span

theorem Cursor.In.span_within {c : Cursor} {whole : Bytes} (h : c.In whole) :
    c.span.Within whole.length := by
  obtain ⟨front, back, rfl, hpos⟩ := h
  simp only [Span.Within, Cursor.span, List.length_append]
  omega

/-! ## Fixed headers -/

namespace FixedHeader

variable {badVersion badLength : Malformation} {bytes : Bytes} {h : FixedHeader}

/-- What reading a header does with its eight bytes. -/
theorem read_bytes (v packetType l m hopLimit x y n : UInt8) (rest : Bytes) :
    read badVersion badLength (v :: packetType :: l :: m :: hopLimit :: x :: y :: n :: rest) =
      if v ≠ version then .error (.malformed badVersion)
      else if n.toNat < size ∨ l.toNat * 256 + m.toNat < n.toNat then .error (.malformed badLength)
      else if l.toNat * 256 + m.toNat > rest.length + size then
        .error (.lengthOverrun (l.toNat * 256 + m.toNat) (rest.length + size))
      else .ok ⟨packetType, l.toNat * 256 + m.toNat, hopLimit, x.toNat * 256 + y.toNat, n.toNat⟩ := by
  simp only [read, Cursor.ofBytes, Cursor.byte, Cursor.word16, bind, Except.bind, pure, Except.pure,
    throw, throwThe, MonadExceptOf.throw, List.length_cons, size]
  rfl

/-- Eight bytes of the version are a header if its lengths fit each other and the bytes. -/
theorem read_bytes_eq_ok {packetType l m hopLimit x y n : UInt8} {rest : Bytes}
    (hsize : size ≤ n.toNat) (hheader : n.toNat ≤ l.toNat * 256 + m.toNat)
    (hinside : l.toNat * 256 + m.toNat ≤ rest.length + size) :
    read badVersion badLength (version :: packetType :: l :: m :: hopLimit :: x :: y :: n :: rest) =
      .ok ⟨packetType, l.toNat * 256 + m.toNat, hopLimit, x.toNat * 256 + y.toNat, n.toNat⟩ := by
  rw [read_bytes, if_neg (not_not.2 rfl), if_neg (by omega), if_neg (Nat.not_lt.2 hinside)]

/-- Nothing else is a header. -/
theorem eq_bytes_of_read (hread : read badVersion badLength bytes = .ok h) :
    ∃ packetType l m hopLimit x y n rest,
      bytes = version :: packetType :: l :: m :: hopLimit :: x :: y :: n :: rest ∧
      (size ≤ n.toNat ∧ n.toNat ≤ l.toNat * 256 + m.toNat ∧
        l.toNat * 256 + m.toNat ≤ rest.length + size) ∧
      h = ⟨packetType, l.toNat * 256 + m.toNat, hopLimit, x.toNat * 256 + y.toNat, n.toNat⟩ := by
  rcases bytes with _ | ⟨v, _ | ⟨t, _ | ⟨l, _ | ⟨m, _ | ⟨hop, _ | ⟨x, _ | ⟨y, _ | ⟨n, rest⟩⟩⟩⟩⟩⟩⟩⟩
  case cons.cons.cons.cons.cons.cons.cons.cons =>
    rw [read_bytes] at hread
    split at hread
    · cases hread
    rename_i hversion
    split at hread
    · cases hread
    rename_i hheader
    split at hread
    · cases hread
    rename_i hinside
    cases hread
    exact ⟨t, l, m, hop, x, y, n, rest, by rw [not_not.1 hversion], by omega, rfl⟩
  case nil => cases hread
  all_goals
    simp only [read, Cursor.ofBytes, Cursor.byte, Cursor.word16, bind, Except.bind] at hread
    split at hread <;> cases hread

/-- A header that was read fits its packet and the packet the bytes, and its packet gives the same
    header whatever follows it. -/
theorem read_eq (hread : read badVersion badLength bytes = .ok h) :
    h.headerLength ≤ h.packetLength ∧ 0 < h.packetLength ∧ h.packetLength ≤ bytes.length ∧
      ∀ more, read badVersion badLength (bytes.take h.packetLength ++ more) = .ok h := by
  obtain ⟨packetType, l, m, hopLimit, x, y, n, rest, rfl, ⟨hsize, hheader, hinside⟩, rfl⟩ :=
    eq_bytes_of_read hread
  have hlong : size ≤ l.toNat * 256 + m.toNat := Nat.le_trans hsize hheader
  refine ⟨hheader, Nat.lt_of_lt_of_le (by decide) hlong, hinside, fun more => ?_⟩
  obtain ⟨k, hk⟩ := Nat.exists_eq_add_of_le' hlong
  have htake : (version :: packetType :: l :: m :: hopLimit :: x :: y :: n :: rest).take
      (l.toNat * 256 + m.toNat) =
        version :: packetType :: l :: m :: hopLimit :: x :: y :: n :: rest.take k := by
    rw [hk]
    rfl
  simp only [htake, List.cons_append]
  refine read_bytes_eq_ok hsize hheader ?_
  rw [List.length_append, List.length_take]
  omega

/-- A header announces a front of the bytes, in which what follows the header has its place. -/
theorem read_front (hread : read badVersion badLength bytes = .ok h) :
    ∃ front rest, bytes = front ++ rest ∧ front.length = h.packetLength ∧ front ≠ [] ∧
      (h.body front).In front ∧ ∀ more, read badVersion badLength (front ++ more) = .ok h := by
  obtain ⟨hheader, hpos, hinside, hagain⟩ := read_eq hread
  have hlength := List.length_take_of_le hinside
  refine ⟨bytes.take h.packetLength, bytes.drop h.packetLength,
    (List.take_append_drop _ _).symm, hlength, ?_, ⟨(bytes.take h.packetLength).take h.headerLength,
      [], ?_, ?_⟩, hagain⟩
  · apply List.ne_nil_of_length_pos
    rwa [hlength]
  · rw [body, List.append_nil, List.take_append_drop]
  · rw [List.length_take_of_le (by rwa [hlength])]
    rfl

end FixedHeader

end NameRelay
