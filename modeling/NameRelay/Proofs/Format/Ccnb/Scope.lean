-- SUMMARY: Which scopes confine a CCNB interest.
import NameRelay.Codec
import NameRelay.Proofs.Format.Ccnb.Limits

/-!
# Scopes of CCNB interests

An interest may leave the node unless its scope says otherwise. What its scope says depends on the
elements directly inside it alone, and of those on the scopes whose value is one byte: such a byte is
either one of the local scopes or invalid, and both confine the interest. A value of another length
says nothing, so it confines nothing, and neither does the text of a scope of two digits.
-/

namespace NameRelay.Ccnb

/-! ## The elements of a packet -/

/-- The tagged elements up to the end of a packet, not those inside them: tags and values. -/
def taggedElements (packet : Bytes) (c : Cursor) : Except DecodeError (List (Nat × Bytes)) :=
  match _h : token c with
  | .error e => .error e
  | .ok (.close, _) => .ok []
  | .ok (.element number kind, next) =>
    if kind = tagKind then
      match _hv : value 1 next with
      | .error e => .error e
      | .ok (v, next) =>
        (taggedElements packet next).map fun others => (number, valueBytes packet v) :: others
    else
      match _hs : skip 1 number kind next with
      | .error e => .error e
      | .ok next => taggedElements packet next
termination_by c.rest.length
decreasing_by
  all_goals have := token_lt _h
  · exact Nat.lt_of_le_of_lt (value_le _hv) this
  · exact Nat.lt_of_le_of_lt (skip_le _hs) this

/-- The tagged elements directly inside the packet at the front of `bytes`. -/
def topLevel (bytes : Bytes) : Except DecodeError (List (Nat × Bytes)) :=
  token (.ofBytes bytes) >>= fun t => taggedElements bytes t.2

theorem taggedElements_eq (packet : Bytes) (c : Cursor) :
    taggedElements packet c = token c >>= fun r =>
      match r.1 with
      | .close => .ok []
      | .element number kind =>
        if kind = tagKind then
          value 1 r.2 >>= fun v =>
            (taggedElements packet v.2).map fun others => (number, valueBytes packet v.1) :: others
        else
          skip 1 number kind r.2 >>= taggedElements packet := by
  rw [taggedElements]
  split
  · rename_i h
    rw [h]
    rfl
  · rename_i h
    rw [h]
    rfl
  · rename_i number kind next h
    rw [h]
    change _ = if kind = tagKind then
        value 1 next >>= fun v =>
          (taggedElements packet v.2).map fun others => (number, valueBytes packet v.1) :: others
      else skip 1 number kind next >>= taggedElements packet
    split
    · cases value 1 next <;> rfl
    · cases skip 1 number kind next <;> rfl

/-! ## Whatever is read can be passed over -/

section Passing

variable {depth : Nat} {packet : Bytes} {c next after : Cursor}

/-- Reading to the end of an inner element is part of reading to the end of the outer one. -/
theorem untilClosed_inside {inside inner : Nat} {l v : Option Span} (hdepth : depth < inside)
    (h : untilClosed inside inner l c = .ok (v, next)) (last : Option Span) :
    ∃ last', untilClosed depth (inner + 1) last c = untilClosed depth 0 last' next := by
  -- Both readers see the same tokens, the outer one with one more element open.
  fun_induction untilClosed inside inner l c generalizing last with
  | case1 => cases h
  | case2 l c after ht =>
    cases h
    refine ⟨last, ?_⟩
    rw [untilClosed_eq, ht]
    rfl
  | case3 l c after ht inner ih =>
    obtain ⟨last', hlast⟩ := ih h last
    refine ⟨last', ?_⟩
    rw [untilClosed_eq, ht]
    exact hlast
  | case4 => cases h
  | case5 inner l c number kind after ht hkind data behind hs ih =>
    obtain ⟨last', hlast⟩ := ih h (some data.span)
    refine ⟨last', ?_⟩
    rw [untilClosed_eq, ht]
    change (if kind = blobKind ∨ kind = textKind then after.split number >>= _ else _) = _
    rw [if_pos hkind, hs]
    exact hlast
  | case6 => cases h
  | case7 inner l c number kind after ht hdata hkind hroom ih =>
    obtain ⟨last', hlast⟩ := ih h last
    refine ⟨last', ?_⟩
    have hroom' : ¬depth + (inner + 1) + 1 > maxDepth := by omega
    rw [untilClosed_eq, ht]
    change (if kind = blobKind ∨ kind = textKind then _ else
      if kind = tagKind ∨ kind = attributeKind then
        if depth + (inner + 1) + 1 > maxDepth then _ else _ else _) = _
    rw [if_neg hdata, if_pos hkind, if_neg hroom']
    exact hlast
  | case8 => cases h

/-- Passing over an inner element is part of reading to the end of the outer one. -/
theorem untilClosed_of_skip {inside number kind : Nat} (hdepth : depth ≤ inside)
    (hroom : depth < maxDepth) (ht : token c = .ok (.element number kind, next))
    (h : skip inside number kind next = .ok after) (last : Option Span) :
    ∃ last', untilClosed depth 0 last c = untilClosed depth 0 last' after := by
  rw [untilClosed_eq, ht]
  unfold skip at h
  split at h
  · rename_i hkind
    obtain ⟨⟨data, behind⟩, hs, hend⟩ := ok_of_bind h
    cases hend
    refine ⟨some data.span, ?_⟩
    change (if kind = blobKind ∨ kind = textKind then next.split number >>= _ else _) = _
    rw [if_pos hkind, hs]
    rfl
  · rename_i hdata
    split at h
    · rename_i hkind
      obtain ⟨⟨v, behind⟩, hv, hend⟩ := ok_of_bind h
      cases hend
      obtain ⟨last', hlast⟩ := untilClosed_inside (Nat.lt_succ_of_le hdepth) hv last
      refine ⟨last', ?_⟩
      change (if kind = blobKind ∨ kind = textKind then _ else
        if kind = tagKind ∨ kind = attributeKind then
          if depth + 0 + 1 > maxDepth then _ else _ else _) = _
      rw [if_neg hdata, if_pos hkind, if_neg (Nat.not_lt_of_ge hroom)]
      exact hlast
    · cases h

/-- The value of an inner element is passed over like the element. -/
theorem skip_of_value {inside number : Nat} {v : Option Span}
    (h : value (inside + 1) c = .ok (v, next)) : skip inside number tagKind c = .ok next := by
  rw [skip, if_neg (by decide), if_pos (.inl rfl), h]
  rfl

/-- The element that is read at nesting `depth` is closed in front of `next`, whatever its last data
    is so far. -/
def Closes (depth : Nat) (c next : Cursor) : Prop :=
  ∀ last, ∃ v, untilClosed depth 0 last c = .ok (v, next)

theorem Closes.of_close (ht : token c = .ok (.close, next)) : Closes depth c next := fun last =>
  ⟨last, by rw [untilClosed_eq, ht]; rfl⟩

theorem Closes.of_skip {inside number kind : Nat} (hafter : Closes depth after next)
    (hdepth : depth ≤ inside) (hroom : depth < maxDepth) {opened : Cursor}
    (ht : token c = .ok (.element number kind, opened))
    (h : skip inside number kind opened = .ok after) : Closes depth c next := fun last => by
  obtain ⟨last', hlast⟩ := untilClosed_of_skip hdepth hroom ht h last
  rw [hlast]
  exact hafter last'

theorem closes_of_readName {name read : Name} (h : readName packet name c = .ok (read, next)) :
    Closes 1 c next := by
  fun_induction readName packet name c with
  | case1 => cases h
  | case2 name c after ht =>
    cases h
    exact .of_close ht
  | case3 => cases h
  | case4 => cases h
  | case5 name c number kind after ht hcomponent v behind hv longer hpush ih =>
    obtain ⟨-, rfl⟩ := hcomponent
    exact (ih h).of_skip (Nat.le_refl 1) (by decide) ht (skip_of_value hv)
  | case6 => cases h
  | case7 name c number kind after ht hother behind hs ih =>
    exact (ih h).of_skip (Nat.le_succ 1) (by decide) ht hs

/-- The signed part says nothing of a scope. -/
theorem closes_of_readSignedInfo {d read : CcnbDetails}
    (h : readSignedInfo packet d c = .ok (read, next)) : Closes 1 c next ∧ read.scope = d.scope := by
  fun_induction readSignedInfo packet d c with
  | case1 => cases h
  | case2 d c after ht =>
    cases h
    exact ⟨.of_close ht, rfl⟩
  | case3 => cases h
  | case4 d c number kind after ht hblock v behind hv block ih =>
    obtain ⟨-, rfl⟩ := hblock
    exact (ih h).imp_left fun hrest =>
      hrest.of_skip (Nat.le_refl 1) (by decide) ht (skip_of_value hv)
  | case5 => cases h
  | case6 d c number kind after ht hblock hkey v behind hv ih =>
    obtain ⟨-, rfl⟩ := hkey
    exact (ih h).imp_left fun hrest =>
      hrest.of_skip (Nat.le_refl 1) (by decide) ht (skip_of_value hv)
  | case7 => cases h
  | case8 d c number kind after ht hblock hkey behind hs ih =>
    exact (ih h).imp_left fun hrest => hrest.of_skip (Nat.le_succ 1) (by decide) ht hs

end Passing

/-! ## What the elements say of the scope -/

/-- What is known of the scope once an element was read. -/
def scopeBehind (scope : Option UInt8) (element : Nat × Bytes) : Option UInt8 :=
  if element.1 = scopeTag then scopeOf scope element.2 else scope

theorem scopeBehind_of_ne {scope : Option UInt8} {tag : Nat} {v : Bytes} (h : tag ≠ scopeTag) :
    scopeBehind scope (tag, v) = scope := if_neg h

section Reading

variable {packet : Bytes} {c next : Cursor}

theorem scope_withField {d read : CcnbDetails} {tag : Nat} {v : Bytes}
    (h : withField d tag v = .ok read) : read.scope = scopeBehind d.scope (tag, v) := by
  have hnumber {f : UInt64 → CcnbDetails}
      (hread : (decimal? v >>= fun number => pure (f number)) = .ok read)
      (hsame : ∀ number, (f number).scope = d.scope) : read.scope = d.scope := by
    obtain ⟨number, -, hend⟩ := ok_of_bind hread
    cases hend
    exact hsame number
  unfold withField at h
  split at h
  · rename_i hscope
    cases h
    exact (if_pos hscope).symm
  · rename_i hscope
    rw [scopeBehind_of_ne hscope]
    -- Numbers and bytes of other fields go to other places of the details.
    repeat' split at h
    · exact hnumber h fun _ => rfl
    · exact hnumber h fun _ => rfl
    · exact hnumber h fun _ => rfl
    all_goals
      cases h
      rfl

/-- A field that is read is an element with a value, and of the fields only a scope says something
    of the scope. -/
theorem scope_readField {draft read : Draft} {tag : Nat}
    (h : readField packet draft tag c = .ok (read, next)) :
    ∃ v, value 1 c = .ok (v, next) ∧
      read.details.scope = scopeBehind draft.details.scope (tag, valueBytes packet v) := by
  unfold readField at h
  split at h
  · rename_i hname
    obtain ⟨⟨name, after⟩, hread, hend⟩ := ok_of_bind h
    cases hend
    obtain ⟨v, hv⟩ := closes_of_readName hread none
    exact ⟨v, hv, (scopeBehind_of_ne (hname ▸ by decide)).symm⟩
  · split at h
    · rename_i hsigned
      obtain ⟨⟨details, after⟩, hread, hend⟩ := ok_of_bind h
      cases hend
      obtain ⟨hcloses, hscope⟩ := closes_of_readSignedInfo hread
      obtain ⟨v, hv⟩ := hcloses none
      exact ⟨v, hv, hscope.trans (scopeBehind_of_ne (hsigned ▸ by decide)).symm⟩
    · obtain ⟨⟨v, after⟩, hv, hend⟩ := ok_of_bind h
      dsimp only at hend
      split at hend
      · rename_i hcontent
        cases hend
        exact ⟨v, hv, (scopeBehind_of_ne (hcontent ▸ by decide)).symm⟩
      · obtain ⟨details, hfield, hlast⟩ := ok_of_bind hend
        cases hlast
        exact ⟨v, hv, scope_withField hfield⟩

/-- The scope of the fields is what the elements say of it one after the other. -/
theorem scope_readFields {draft read : Draft} (h : readFields packet draft c = .ok (read, next)) :
    ∃ elements, taggedElements packet c = .ok elements ∧
      read.details.scope = elements.foldl scopeBehind draft.details.scope := by
  fun_induction readFields packet draft c with
  | case1 => cases h
  | case2 draft c after ht =>
    cases h
    exact ⟨[], by rw [taggedElements_eq, ht]; rfl, rfl⟩
  | case3 => cases h
  | case4 draft c number after further behind hf ht ih =>
    obtain ⟨v, hv, hscope⟩ := scope_readField hf
    obtain ⟨elements, helements, hlast⟩ := ih h
    refine ⟨(number, valueBytes packet v) :: elements, ?_, ?_⟩
    · rw [taggedElements_eq, ht]
      simp only [if_true, bind, Except.bind, hv, helements, Except.map]
    · rw [hlast, hscope, List.foldl_cons]
  | case5 => cases h
  | case6 draft c number kind after ht hkind behind hs ih =>
    obtain ⟨elements, helements, hlast⟩ := ih h
    refine ⟨elements, ?_, hlast⟩
    rw [taggedElements_eq, ht]
    change (if kind = tagKind then _ else skip 1 number kind after >>= _) = _
    rw [if_neg hkind, hs]
    exact helements

end Reading

/-! ## How far an interest may go -/

/-- Whether a scope lets an interest leave the node. -/
def reaches (scope : Option UInt8) : Bool := scope.any fun s => Suite.maxLocalScope < s.toNat

theorem mayForward_eq_reaches {packet : Packet} {d : CcnbDetails} (h : packet.details = .ccnb d) :
    Suite.mayForward .ccnb packet = reaches d.scope := by
  simp only [Suite.mayForward, h, reaches]

/-- A value of one byte confines an interest, and any other leaves it where it may go. -/
theorem reaches_scopeOf (scope : Option UInt8) (v : Bytes) :
    reaches (scopeOf scope v) = true ↔ reaches scope = true ∧ v.length ≠ 1 := by
  match v with
  | [] => exact (and_iff_left nofun).symm
  | [b] =>
    refine iff_of_false ?_ fun h => h.2 rfl
    rw [scopeOf]
    split
    · rename_i hlocal
      obtain ⟨hlow, hhigh⟩ := hlocal
      rw [UInt8.le_iff_toNat_le] at hlow hhigh
      have hsub : (b - 0x30).toNat ≤ Suite.maxLocalScope := by
        rw [UInt8.toNat_sub_of_le _ _ (UInt8.le_iff_toNat_le.2 hlow)]
        exact Nat.sub_le_of_le_add hhigh
      simp only [reaches, Option.any_some, decide_eq_true_iff]
      exact Nat.not_lt_of_ge hsub
    · exact Bool.false_ne_true
  | _ :: _ :: _ => exact (and_iff_left (by simp)).symm

theorem reaches_foldl (elements : List (Nat × Bytes)) (scope : Option UInt8) :
    reaches (elements.foldl scopeBehind scope) = true ↔
      reaches scope = true ∧ ∀ v, (scopeTag, v) ∈ elements → v.length ≠ 1 := by
  induction elements generalizing scope with
  | nil => exact (and_iff_left nofun).symm
  | cons element elements ih =>
    obtain ⟨tag, value⟩ := element
    rw [List.foldl_cons, ih]
    by_cases htag : tag = scopeTag
    · subst htag
      have hhead : (∀ v, (scopeTag, v) ∈ (scopeTag, value) :: elements → v.length ≠ 1) ↔
          value.length ≠ 1 ∧ ∀ v, (scopeTag, v) ∈ elements → v.length ≠ 1 := by
        simp [or_imp, forall_and]
      rw [hhead, scopeBehind, if_pos rfl, reaches_scopeOf, and_assoc]
    · rw [scopeBehind_of_ne htag]
      simp [Ne.symm htag]

/-- A packet that is read may leave the node just if no scope directly inside it is one byte. -/
theorem mayForward_of_decode {bytes : Bytes} {packet : Packet} {n : Nat}
    (h : decode bytes = .ok (packet, n)) :
    ∃ elements, topLevel bytes = .ok elements ∧ (Suite.mayForward .ccnb packet = true ↔
      ∀ v, (scopeTag, v) ∈ elements → v.length ≠ 1) := by
  rw [decode_eq] at h
  obtain ⟨⟨t, c⟩, ht, hhead⟩ := ok_of_bind h
  obtain ⟨kind, -, hfields⟩ := ok_of_bind hhead
  obtain ⟨⟨draft, after⟩, hread, hname⟩ := ok_of_bind hfields
  obtain ⟨elements, helements, hscope⟩ := scope_readFields hread
  refine ⟨elements, by rw [topLevel, ht]; exact helements, ?_⟩
  have hdetails : packet.details = .ccnb draft.details := by
    dsimp only at hname
    split at hname
    · cases hname
    · cases hname
      rfl
  rw [mayForward_eq_reaches hdetails, hscope, reaches_foldl]
  exact and_iff_right rfl

/-! ## Encoded interests -/

/-- Whatever the suite and the flags of a name, its interests are those of a CCNB name. -/
theorem encodeInterest_wires {name : Name} {bytes : Bytes} {o : InterestOptions}
    (h : encodeInterest name o = .ok bytes) :
    encodeInterest ⟨.ccnb, name.wireComponents, none, .none⟩ o = .ok bytes := by
  have hroom : Write.roomFor name 0 ≤
      Write.roomFor ⟨.ccnb, name.wireComponents, none, .none⟩ 0 := by
    have hsum : ∀ wires markers : List Bytes,
        wires.foldr (fun wire room => wire.length + Write.componentAllowance + room) 0 ≤
          (wires ++ markers).foldr
            (fun wire room => wire.length + Write.componentAllowance + room) 0 := by
      intro wires markers
      induction wires with
      | nil => exact Nat.zero_le _
      | cons wire wires ih => exact Nat.add_le_add_left ih _
    exact Nat.add_le_add_left (hsum name.components name.markers) _
  have hname : nameBytes ⟨.ccnb, name.wireComponents, none, .none⟩ = nameBytes name := by
    rw [nameBytes, nameBytes]
    exact congrArg (fun wires => _ ++ (componentsBytes wires ++ [0])) (List.append_nil _)
  obtain ⟨hle, hbytes⟩ := (encodeInterest_eq_ok_iff name bytes o).1 h
  rw [encodeInterest_eq_ok_iff, hname]
  exact ⟨Nat.le_trans hle hroom, hbytes⟩

/-- The text of a scope confines the interest just if it is one digit. -/
theorem reaches_interestDetails (o : InterestOptions) :
    reaches (interestDetails o).scope = true ↔ ∀ s ∈ o.scope, 10 ≤ s := by
  rw [interestDetails]
  cases o.scope with
  | none => exact iff_of_true rfl fun s hs => absurd hs (Option.not_mem_none s)
  | some s =>
    simp only [reaches, Option.elim_some, Option.mem_some_iff, forall_eq', UInt8.le_iff_toNat_le,
      UInt8.reduceToNat]
    split
    · rw [Option.any_some, decide_eq_true_iff, Suite.maxLocalScope]
      omega
    · split
      · exact iff_of_false Bool.false_ne_true (by omega)
      · exact iff_of_true rfl (by omega)

/-- An encoded interest may leave the node if it has no scope or one of several digits. -/
theorem mayForward_of_encodeInterest {name : Name} {bytes : Bytes} {o : InterestOptions}
    (hok : encodeInterest name o = .ok bytes) {packet : Packet} {n : Nat}
    (h : decode bytes = .ok (packet, n)) :
    Suite.mayForward .ccnb packet = true ↔ ∀ s ∈ o.scope, 10 ≤ s := by
  have hwires := encodeInterest_wires hok
  obtain ⟨-, rfl⟩ := (encodeInterest_eq_ok_iff _ _ _).1 hwires
  obtain ⟨⟨read, hreread⟩, hshort⟩ := reread_of_decode rfl (by decide) h
  have hsize := Name.exists_reread_iff.1 ⟨read, hreread⟩
  rw [Name.wireComponents, List.length_append] at hsize
  have hread := decode_encodeInterest_reread hreread rfl (Nat.le_of_add_right_le hsize) hshort hwires
  rw [dropFrom_packetBytes (.inl rfl), h] at hread
  cases hread
  rw [mayForward_eq_reaches rfl, reaches_interestDetails]

/-- What confines a CCNB interest is a scope of one byte directly inside it, and no other scope. So
    an interest that is encoded with a scope stays on the node if the scope is below ten, and may
    leave it otherwise. -/
theorem mayForward_iff_no_digit {bytes : Bytes} {packet : Packet} {n : Nat}
    (h : Suite.ccnb.decode bytes = .ok (packet, n)) :
    (∃ elements, topLevel bytes = .ok elements ∧ (Suite.ccnb.mayForward packet = true ↔
      ∀ v, (scopeTag, v) ∈ elements → v.length ≠ 1)) ∧
    ∀ (name : Name) (o : InterestOptions) (s : UInt8), o.scope = some s →
      Suite.ccnb.encodeInterest name o = .ok bytes →
        (Suite.ccnb.mayForward packet = true ↔ 10 ≤ s) := by
  refine ⟨mayForward_of_decode h, fun name o s hscope hok => ?_⟩
  rw [mayForward_of_encodeInterest hok h, hscope]
  simp

/-- An interest for `/a` that is encoded with scope 10 may leave the node: its scope is there, with a
    value of two digits. -/
theorem two_digits_leave :
    let name : Name := ⟨.ccnb, [[0x61]], none, .none⟩
    let bytes : Bytes :=
      [0x01, 0xd2, 0xf2, 0xfa, 0x8d, 0x61, 0, 0, 0x02, 0xd2, 0x96, 0x31, 0x30, 0, 0]
    let packet : Packet := ⟨bytes, .message .interest name none, .ccnb {}⟩
    Suite.ccnb.encodeInterest name { scope := some 10 } = .ok bytes ∧
      Suite.ccnb.decode bytes = .ok (packet, 15) ∧
      topLevel bytes = .ok [(nameTag, [0x61]), (scopeTag, [0x31, 0x30])] ∧
      Suite.ccnb.mayForward packet = true := by
  intro name bytes packet
  have hencoded : Suite.ccnb.encodeInterest name { scope := some 10 } = .ok bytes := by
    decide +kernel
  have hread : Suite.ccnb.decode bytes = .ok (packet, 15) := by
    decide +kernel
  have helements : topLevel bytes = .ok [(nameTag, [0x61]), (scopeTag, [0x31, 0x30])] := by
    decide +kernel
  exact ⟨hencoded, hread, helements,
    ((mayForward_iff_no_digit hread).2 name _ 10 rfl hencoded).2 (by decide)⟩

end NameRelay.Ccnb
