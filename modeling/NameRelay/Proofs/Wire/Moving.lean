-- SUMMARY: Elements read the same wherever they stand, and those that a reader skips may stand anywhere.
import NameRelay.Proofs.Wire.Framing

/-!
# Moved elements

The head of an element is read in the same way at every place, so bytes give the same elements
wherever they stand, only moved. A fold whose step goes by the types and the values of the elements
does not notice, and it goes over a sequence piece by piece (`Head.foldM_append`). So an element that
the step skips can be put between two others, and one element can stand for another of which the step
makes the same. How wide the lengths of the elements around are written plays no role: `Head.Spelled`
takes any bytes that are read as one element.
-/

namespace NameRelay

-- ---------------------------------------------------------------------------
-- Readers
-- ---------------------------------------------------------------------------

namespace Cursor

/-- The cursor `n` bytes further back in a longer buffer. -/
def moved (n : Nat) (c : Cursor) : Cursor := ⟨n + c.pos, c.rest⟩

/-- The reader does not look at places. -/
def Moves {α : Type} (read : Cursor → Except DecodeError (α × Cursor)) : Prop :=
  ∀ n c, read (c.moved n) = (read c).map fun r => (r.1, r.2.moved n)

theorem moves_varNumber : Moves varNumber := by
  rintro n ⟨pos, _ | ⟨first, rest⟩⟩
  · rfl
  simp only [varNumber, moved]
  split
  · rfl
  · split
    · simp only [Except.map, Nat.add_assoc]
    · rfl

theorem split_moved (n k : Nat) (c : Cursor) :
    (c.moved n).split k = (c.split k).map fun r => (r.1.moved n, r.2.moved n) := by
  rw [split, split]
  by_cases hroom : k ≤ c.remaining
  · rw [if_pos hroom, if_pos (show k ≤ (c.moved n).remaining from hroom)]
    simp only [Except.map, advance, moved, Nat.add_assoc]
  · rw [if_neg hroom, if_neg (show ¬k ≤ (c.moved n).remaining from hroom)]
    rfl

end Cursor

namespace Tlv

open Cursor (Frames Moves)

/-- The element `n` bytes further back in a longer buffer. -/
def Element.moved (n : Nat) (e : Element) : Element := { e with value := e.value.moved n }

/-- Of the elements the step reads types and values only. -/
def ByValue {σ : Type} (step : σ → Element → Except DecodeError σ) : Prop :=
  ∀ s e f, e.type = f.type → e.value.rest = f.value.rest → step s e = step s f

namespace Head

theorem moves_readPair {number : Cursor → Except DecodeError (Nat × Cursor)}
    (h : Moves number) : Moves (readPair number) := by
  intro n c
  rw [readPair, readPair, h n c]
  cases number c with
  | error e => rfl
  | ok r =>
    simp only [Except.map, bind, Except.bind, h n r.2]
    cases number r.2 <;> rfl

theorem moves_flexible : Moves flexible.read := moves_readPair Cursor.moves_varNumber

variable {head : Head}

theorem element_moved (h : Moves head.read) (n : Nat) (c : Cursor) :
    head.element (c.moved n) = (head.element c).map fun r => (r.1.moved n, r.2.moved n) := by
  rw [element, element, h n c]
  cases head.read c with
  | error e => rfl
  | ok r =>
    simp only [Except.map, bind, Except.bind, Cursor.split_moved]
    cases r.2.split r.1.2 with
    | error e => rfl
    | ok s =>
      simp only [pure, Except.pure, Element.moved, Cursor.moved, Nat.add_sub_add_left]

theorem elements_moved (h : Moves head.read) (n : Nat) (c : Cursor) :
    head.elements (c.moved n) =
      ⟨(head.elements c).items.map (·.moved n), (head.elements c).fault⟩ := by
  fun_induction head.elements c with
  | case1 c hempty => exact elements_of_isEmpty hempty
  | case2 c hempty fault hfault =>
    have hread := element_moved h n c
    rw [hfault] at hread
    exact elements_of_error hempty hread
  | case3 c hempty first next hfirst more ih =>
    have hread := element_moved h n c
    rw [hfirst] at hread
    rw [elements_of_element hread, ih]
    rfl

/-- A fold that goes by values does not notice where the bytes stand. -/
theorem foldM_place (h : Moves head.read) {σ : Type} {step : σ → Element → Except DecodeError σ}
    (hstep : ByValue step) (pos : Nat) (bytes : Bytes) (s : σ) :
    (head.elements ⟨pos, bytes⟩).foldM s step = (head.elements (.ofBytes bytes)).foldM s step := by
  have hvalue (e : Element) (s : σ) : step s (e.moved pos) = (step s e).map id := by
    rw [hstep s (e.moved pos) e rfl rfl, Except.map_id]
    rfl
  have hfold := (head.elements (.ofBytes bytes)).foldM_map id (·.moved pos) (fun e _ => hvalue e) s
  rw [← elements_moved h, Except.map_id] at hfold
  exact hfold

theorem foldM_rest (h : Moves head.read) {σ : Type} {step : σ → Element → Except DecodeError σ}
    (hstep : ByValue step) {c d : Cursor} (hrest : c.rest = d.rest) (s : σ) :
    (head.elements c).foldM s step = (head.elements d).foldM s step := by
  refine (foldM_place h hstep c.pos c.rest s).trans ?_
  rw [hrest]
  exact (foldM_place h hstep d.pos d.rest s).symm

-- ---------------------------------------------------------------------------
-- Pieces of sequences
-- ---------------------------------------------------------------------------

/-- The bytes are elements to their end. -/
def Whole (head : Head) (bytes : Bytes) : Prop := (head.elements (.ofBytes bytes)).fault = none

theorem whole_nil : head.Whole [] := congrArg Elements.fault (elements_of_isEmpty rfl)

/-- Bytes over which a fold succeeds are whole elements. -/
theorem whole_of_foldM {σ : Type} {step : σ → Element → Except DecodeError σ} {bytes : Bytes}
    {s last : σ} (h : (head.elements (.ofBytes bytes)).foldM s step = .ok last) :
    head.Whole bytes := by
  obtain ⟨_, -, hend⟩ := ok_of_bind h
  rw [Whole]
  cases hfault : (head.elements (.ofBytes bytes)).fault with
  | none => rfl
  | some fault =>
    rw [hfault] at hend
    cases hend

/-- Behind whole elements reading goes on. -/
theorem elements_append (hhead : ∀ c, Frames head.read c) {c : Cursor}
    (hwhole : (head.elements c).fault = none) (back : Bytes) :
    head.elements ⟨c.pos, c.rest ++ back⟩ =
      ⟨(head.elements c).items ++ (head.elements ⟨c.stop, back⟩).items,
        (head.elements ⟨c.stop, back⟩).fault⟩ := by
  fun_induction head.elements c with
  | case1 c hempty =>
    have hnil : c.rest = [] := List.isEmpty_iff.1 hempty
    rw [Cursor.stop, hnil]
    rfl
  | case2 => cases hwhole
  | case3 c hempty first next hfirst more ih =>
    obtain ⟨front, hfront, hwire, -, hrest, hmore⟩ := element_eq hhead hfirst
    have hnext := Frames.after_eq hfirst hrest hmore
    have hstop : c.stop = next.stop := by
      rw [hnext, Cursor.stop, Cursor.stop, hrest, List.length_append, Nat.add_assoc]
    have hread : head.element ⟨c.pos, c.rest ++ back⟩ = .ok (first, ⟨next.pos, next.rest ++ back⟩) := by
      rw [hrest, List.append_assoc, hmore, hnext]
    rw [elements_of_element hread, ih hwhole, hstop]
    rfl

/-- A fold goes over whole elements first, and on from there. -/
theorem foldM_append (hhead : ∀ c, Frames head.read c) {c : Cursor}
    (hwhole : (head.elements c).fault = none) (back : Bytes) {σ : Type}
    (step : σ → Element → Except DecodeError σ) (s : σ) :
    (head.elements ⟨c.pos, c.rest ++ back⟩).foldM s step =
      (head.elements c).foldM s step >>= fun s => (head.elements ⟨c.stop, back⟩).foldM s step := by
  rw [elements_append hhead hwhole]
  simp only [Elements.foldM, hwhole, List.foldlM_append]
  cases (head.elements c).items.foldlM step s <;> rfl

/-- The bytes are read as one element of this type with this value, however wide its numbers are
    written. -/
def Spelled (head : Head) (wire : Bytes) (type : Nat) (value : Bytes) : Prop :=
  ∃ e, head.element (.ofBytes wire) = .ok (e, ⟨wire.length, []⟩) ∧ e.type = type ∧
    e.value.rest = value

theorem Spelled.elements {wire value : Bytes} {type : Nat} (h : head.Spelled wire type value) :
    ∃ e, head.elements (.ofBytes wire) = ⟨[e], none⟩ ∧ e.type = type ∧ e.value.rest = value := by
  obtain ⟨e, hread, htype, hvalue⟩ := h
  refine ⟨e, ?_, htype, hvalue⟩
  rw [elements_of_element hread, elements_of_isEmpty rfl]

section Folds

variable {σ : Type} {step : σ → Element → Except DecodeError σ} {front back : Bytes}

theorem foldM_behind (hhead : ∀ c, Frames head.read c) (hmoves : Moves head.read)
    (hstep : ByValue step) (hfront : head.Whole front) (back : Bytes) (s : σ) :
    (head.elements (.ofBytes (front ++ back))).foldM s step =
      (head.elements (.ofBytes front)).foldM s step >>= fun s =>
        (head.elements (.ofBytes back)).foldM s step := by
  refine (foldM_append hhead hfront back step s).trans (bind_congr_ok fun s _ => ?_)
  exact foldM_place hmoves hstep _ back s

/-- Of an element between others a fold makes what its step makes of it. -/
theorem foldM_between (hhead : ∀ c, Frames head.read c) (hmoves : Moves head.read)
    {wire value : Bytes} {type : Nat} (hwire : head.Spelled wire type value) :
    ∃ e : Element, e.type = type ∧ e.value.rest = value ∧
      ∀ {σ : Type} {step : σ → Element → Except DecodeError σ}, ByValue step →
        ∀ {front : Bytes}, head.Whole front → ∀ (back : Bytes) (s : σ),
          (head.elements (.ofBytes (front ++ wire ++ back))).foldM s step =
            (head.elements (.ofBytes front)).foldM s step >>= fun s =>
              step s e >>= fun s => (head.elements (.ofBytes back)).foldM s step := by
  obtain ⟨e, hitems, htype, hvalue⟩ := hwire.elements
  refine ⟨e, htype, hvalue, fun hstep _ hfront back s => ?_⟩
  have hwhole : head.Whole wire := by rw [Whole, hitems]
  rw [List.append_assoc, foldM_behind hhead hmoves hstep hfront]
  refine bind_congr_ok fun s _ => ?_
  rw [foldM_behind hhead hmoves hstep hwhole, hitems]
  refine congrArg (· >>= _) ?_
  simp only [Elements.foldM, List.foldlM_cons, List.foldlM_nil, bind_pure]

/-- The new bytes are the old ones with one more element of a type that is not among the given ones:
    in front of them, behind them, or between two of them. -/
inductive Inserted (head : Head) (types : List Nat) : Bytes → Bytes → Prop
  | intro {front back wire value : Bytes} {type : Nat} (hfront : head.Whole front)
    (hwire : head.Spelled wire type value) (htype : type ∉ types) :
    Inserted head types (front ++ back) (front ++ wire ++ back)

/-- An element that is skipped can stand anywhere. -/
theorem foldM_inserted (hhead : ∀ c, Frames head.read c) (hmoves : Moves head.read)
    (hstep : ByValue step) {types : List Nat}
    (hskip : ∀ s (e : Element), e.type ∉ types → step s e = .ok s) {old new : Bytes}
    (h : head.Inserted types old new) (s : σ) :
    (head.elements (.ofBytes new)).foldM s step = (head.elements (.ofBytes old)).foldM s step := by
  obtain ⟨hfront, hwire, htype⟩ := h
  obtain ⟨e, rfl, -, hfold⟩ := foldM_between hhead hmoves hwire
  rw [hfold hstep hfront, foldM_behind hhead hmoves hstep hfront]
  refine bind_congr_ok fun s _ => ?_
  rw [hskip s e htype]
  rfl

/-- An element can stand for another if the step makes the same of both. -/
theorem foldM_replaced (hhead : ∀ c, Frames head.read c) (hmoves : Moves head.read)
    (hstep : ByValue step) {old new value value' : Bytes} {type : Nat}
    (hfront : head.Whole front) (hold : head.Spelled old type value)
    (hnew : head.Spelled new type value')
    (hsame : ∀ s (e f : Element), e.type = type → e.value.rest = value → f.type = type →
      f.value.rest = value' → step s f = step s e) (back : Bytes) (s : σ) :
    (head.elements (.ofBytes (front ++ new ++ back))).foldM s step =
      (head.elements (.ofBytes (front ++ old ++ back))).foldM s step := by
  obtain ⟨e, he, hvalue, hfold⟩ := foldM_between hhead hmoves hold
  obtain ⟨f, hf, hvalue', hfold'⟩ := foldM_between hhead hmoves hnew
  rw [hfold hstep hfront, hfold' hstep hfront]
  refine bind_congr_ok fun s _ => ?_
  rw [hsame s e f he hvalue hf hvalue']

end Folds

end Head

/-- What is written as one element is read as one. -/
theorem Form.spelled_element (f : Form) {type : Nat} {value : Bytes} (htype : type < f.limit)
    (hlength : value.length < f.limit) : f.head.Spelled (f.element type value) type value := by
  have hread := f.read_element htype hlength 0 []
  rw [List.append_nil, Nat.zero_add] at hread
  exact ⟨f.place 0 type value, hread, rfl, rfl⟩

end Tlv

end NameRelay
