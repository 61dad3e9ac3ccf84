-- SUMMARY: A byte replaced in the value of an element is replaced in what is read, and nothing else is.
import NameRelay.Proofs.Wire.Framing

/-!
# Replaced bytes

The types and lengths of elements say how bytes are cut up, so a byte that is replaced in a value
leaves every element in its place. `Cursor.put` and `Element.put` say what becomes of cursors and of
elements. A byte that is in no head stays in no head further down, one level of elements after the
other, and a fold over elements with the replaced byte gives the replaced result if each step does.
-/

namespace NameRelay

/-- The place is in the stretch. -/
def Span.Holds (s : Span) (place : Nat) : Prop := s.start ≤ place ∧ place < s.stop

/-- A byte outside a stretch makes no difference to it. -/
theorem Span.of_set {s : Span} {i : Nat} (h : ¬s.Holds i) (buffer : Bytes) (b : UInt8) :
    s.of (buffer.set i b) = s.of buffer := by
  rw [Span.Holds] at h
  rw [Span.of, Span.of]
  by_cases hstart : i < s.start
  · rw [List.drop_set_of_lt hstart]
  · have hbehind : ((buffer.drop s.start).take (s.stop - s.start)).length ≤ i - s.start := by
      rw [List.length_take]
      omega
    rw [List.drop_set, if_neg hstart, List.take_set, List.set_eq_of_length_le hbehind]

namespace Cursor

/-- A single byte is where its cursor begins. -/
theorem In.getElem?_pos {c : Cursor} {whole : Bytes} (h : c.In whole) {a : UInt8}
    (hrest : c.rest = [a]) : whole[c.pos]? = some a := by
  obtain ⟨front, back, rfl, hpos⟩ := h
  rw [hpos, hrest, List.append_assoc, List.getElem?_append_right (Nat.le_refl _), Nat.sub_self]
  rfl

/-- The place is that of an unread byte. -/
def Covers (c : Cursor) (place : Nat) : Prop := c.pos ≤ place ∧ place < c.stop

/-- The cursor with another byte at a place of the buffer, if the place is that of an unread byte. -/
def put (c : Cursor) (place : Nat) (b : UInt8) : Cursor :=
  ⟨c.pos, if c.pos ≤ place then c.rest.set (place - c.pos) b else c.rest⟩

variable {c : Cursor} {place : Nat} {b : UInt8}

@[simp] theorem put_pos : (c.put place b).pos = c.pos := rfl

@[simp] theorem length_put : (c.put place b).rest.length = c.rest.length := by
  rw [put]
  split
  · exact List.length_set
  · rfl

theorem put_of_not_covers (h : ¬c.Covers place) : c.put place b = c := by
  rw [put]
  split
  · rename_i hpos
    have hbehind : c.rest.length ≤ place - c.pos := by
      by_contra hinside
      refine h ⟨hpos, ?_⟩
      rw [stop]
      omega
    rw [List.set_eq_of_length_le hbehind]
  · rfl

theorem put_ofBytes (bytes : Bytes) : (ofBytes bytes).put place b = ofBytes (bytes.set place b) := by
  simp only [put, ofBytes, Nat.zero_le, if_true, Nat.sub_zero]

/-- The byte is replaced on the side on which it is. -/
theorem put_append (pos : Nat) (as bs : Bytes) :
    (⟨pos, as ++ bs⟩ : Cursor).put place b =
      ⟨pos, (put ⟨pos, as⟩ place b).rest ++ (put ⟨pos + as.length, bs⟩ place b).rest⟩ := by
  simp only [put]
  by_cases hpos : pos ≤ place
  · by_cases hfront : place - pos < as.length
    · rw [if_pos hpos, if_pos hpos, if_neg (by omega), List.set_append_left _ _ hfront]
    · have hplace : place - pos - as.length = place - (pos + as.length) := by omega
      rw [if_pos hpos, if_pos hpos, if_pos (by omega), List.set_append_right _ _ (by omega),
        List.set_eq_of_length_le (Nat.le_of_not_lt hfront), hplace]
  · rw [if_neg hpos, if_neg hpos, if_neg (by omega)]

theorem covers_pos_of_single {a : UInt8} (hrest : c.rest = [a]) : c.Covers c.pos := by
  refine ⟨Nat.le_refl _, ?_⟩
  rw [stop, hrest]
  exact Nat.lt_succ_self _

/-- A single byte is replaced by the other one. -/
theorem put_single {a : UInt8} (hrest : c.rest = [a]) (h : c.Covers place) :
    place = c.pos ∧ (c.put place b).rest = [b] := by
  obtain ⟨hpos, hstop⟩ := h
  rw [stop, hrest, List.length_singleton] at hstop
  have hplace : place = c.pos := by omega
  subst hplace
  rw [put, if_pos hpos, hrest, Nat.sub_self]
  exact ⟨rfl, rfl⟩

end Cursor

namespace Tlv

/-- The element with another byte at a place of the buffer, if the place is in its value. -/
def Element.put (e : Element) (place : Nat) (b : UInt8) : Element :=
  ⟨e.type, e.value.put place b, e.wire.take (e.wire.length - e.length) ++ (e.value.put place b).rest⟩

@[simp] theorem Element.put_type (e : Element) (place : Nat) (b : UInt8) :
    (e.put place b).type = e.type := rfl

@[simp] theorem Element.put_value (e : Element) (place : Nat) (b : UInt8) :
    (e.put place b).value = e.value.put place b := rfl

namespace Head

variable {head : Head} {c after : Cursor} {e f : Element} {place : Nat} {b : UInt8}

/-! ## Places of elements -/

/-- An element begins with its head and ends with its value, and what follows it goes on to the end. -/
theorem element_places (hhead : ∀ c, Cursor.Frames head.read c)
    (h : head.element c = .ok (e, after)) :
    c.pos < e.value.pos ∧ e.value.stop = after.pos ∧ after.stop = c.stop := by
  obtain ⟨front, hfront, hwire, hpos, hrest, hmore⟩ := element_eq hhead h
  have hafter : after.pos = c.pos + e.wire.length :=
    congrArg Cursor.pos (Cursor.Frames.after_eq h hrest hmore)
  have hlong := List.length_pos_iff.2 hfront
  have hlength := congrArg List.length hrest
  rw [List.length_append] at hlength
  rw [hwire, List.length_append] at hafter hlength
  simp only [Cursor.stop]
  omega

/-- Elements are among the bytes in which they are read. -/
theorem value_inside_of_mem_elements (hhead : ∀ c, Cursor.Frames head.read c)
    (h : e ∈ (head.elements c).items) : c.pos ≤ e.value.pos ∧ e.value.stop ≤ c.stop := by
  fun_induction head.elements c with
  | case1 => cases h
  | case2 => cases h
  | case3 c _ first next hfirst more ih =>
    obtain ⟨hvalue, hnext, hstop⟩ := element_places hhead hfirst
    have hinside : next.pos ≤ next.stop := Nat.le_add_right _ _
    have hfirstInside : first.value.pos ≤ first.value.stop := Nat.le_add_right _ _
    rcases List.mem_cons.1 h with rfl | hmore
    · omega
    · have hlater := ih hmore
      omega

theorem covers_of_mem_elements (hhead : ∀ c, Cursor.Frames head.read c)
    (h : e ∈ (head.elements c).items) (hplace : e.value.Covers place) : c.Covers place := by
  obtain ⟨hpos, hstop⟩ := value_inside_of_mem_elements hhead h
  exact ⟨Nat.le_trans hpos hplace.1, Nat.lt_of_lt_of_le hplace.2 hstop⟩

/-- A byte is in the value of one element only. -/
theorem eq_of_covers (hhead : ∀ c, Cursor.Frames head.read c) (he : e ∈ (head.elements c).items)
    (hf : f ∈ (head.elements c).items) (hplace : e.value.Covers place)
    (hplace' : f.value.Covers place) : e = f := by
  fun_induction head.elements c with
  | case1 => cases he
  | case2 => cases he
  | case3 c _ first next hfirst more ih =>
    obtain ⟨-, hnext, -⟩ := element_places hhead hfirst
    -- What the first element covers stands in front of what the others cover.
    have hlater {g : Element} (hg : g ∈ more.items) (hcovers : g.value.Covers place) :
        ¬first.value.Covers place := by
      intro hfront
      have hbehind := (covers_of_mem_elements hhead hg hcovers).1
      have hbefore := hfront.2
      omega
    rcases List.mem_cons.1 he with rfl | he'
    · rcases List.mem_cons.1 hf with rfl | hf'
      · rfl
      · exact absurd hplace (hlater hf' hplace')
    · rcases List.mem_cons.1 hf with rfl | hf'
      · exact absurd hplace' (hlater he' hplace)
      · exact ih he' hf'

/-! ## Elements with a replaced byte -/

/-- A byte that is not in the head is replaced in the value, or in what follows the element. -/
theorem element_put (hhead : ∀ c, Cursor.Frames head.read c)
    (h : head.element c = .ok (e, after)) (hplace : c.pos ≤ place → e.value.pos ≤ place) :
    head.element (c.put place b) = .ok (e.put place b, after.put place b) := by
  obtain ⟨front, -, hwire, hpos, hrest, hcut⟩ := element_cut hhead h
  have hafter : after.pos = e.value.pos + e.value.rest.length := (element_places hhead h).2.1.symm
  have hfront : (⟨c.pos, front⟩ : Cursor).put place b = ⟨c.pos, front⟩ := by
    apply Cursor.put_of_not_covers
    rintro ⟨hbehind, hbefore⟩
    have hvalue := hplace hbehind
    simp only [Cursor.stop] at hbefore
    omega
  have hwhole : c.put place b =
      ⟨c.pos, front ++ (e.value.put place b).rest ++ (after.put place b).rest⟩ := by
    obtain ⟨pos, rest⟩ := c
    dsimp only at hrest hpos hfront
    rw [hrest, hwire, Cursor.put_append, Cursor.put_append, hfront, List.length_append,
      ← Nat.add_assoc, ← hpos, ← hafter]
  have hhead' : e.wire.take (e.wire.length - e.length) = front := by
    rw [hwire, List.length_append, Element.length, Cursor.remaining, Nat.add_sub_cancel]
    exact List.take_left
  rw [hwhole, hcut _ _ Cursor.length_put, Element.put, hhead', Cursor.length_put, ← hafter]
  rfl

/-- If a byte is in one of the values, elements are read with the byte replaced there. -/
theorem elements_put (hhead : ∀ c, Cursor.Frames head.read c)
    (h : c.Covers place → ∃ e ∈ (head.elements c).items, e.value.Covers place) :
    head.elements (c.put place b) =
      ⟨(head.elements c).items.map (·.put place b), (head.elements c).fault⟩ := by
  fun_induction head.elements c with
  | case1 c hempty =>
    have hsame : c.put place b = c := Cursor.put_of_not_covers fun hcovers => by simpa using h hcovers
    rw [hsame, elements_of_isEmpty hempty]
    rfl
  | case2 c hempty fault hfault =>
    have hsame : c.put place b = c := Cursor.put_of_not_covers fun hcovers => by simpa using h hcovers
    rw [hsame, elements_of_error hempty hfault]
    rfl
  | case3 c hempty first next hfirst more ih =>
    obtain ⟨hvalue, hnext, hstop⟩ := element_places hhead hfirst
    have hinside : next.pos ≤ next.stop := Nat.le_add_right _ _
    have hfirstInside : first.value.pos ≤ first.value.stop := Nat.le_add_right _ _
    have hrest : next.Covers place → ∃ e ∈ more.items, e.value.Covers place := by
      rintro ⟨hbehind, hbefore⟩
      obtain ⟨e, he, hcovers⟩ := h ⟨by omega, by omega⟩
      rcases List.mem_cons.1 he with rfl | he
      · exact absurd hcovers.2 (by omega)
      · exact ⟨e, he, hcovers⟩
    have hplace : c.pos ≤ place → first.value.pos ≤ place := by
      intro hbehind
      by_contra hfront
      obtain ⟨e, he, hcovers⟩ := h ⟨hbehind, by omega⟩
      rcases List.mem_cons.1 he with rfl | he
      · exact hfront hcovers.1
      · have hlater := (covers_of_mem_elements hhead he hcovers).1
        omega
    rw [elements_of_element (element_put hhead hfirst hplace), ih hrest]
    rfl

end Head

end Tlv

end NameRelay
