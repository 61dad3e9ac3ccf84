-- SUMMARY: CCNB readers take what they need off the front and look up values only where they have read.
import NameRelay.Proofs.Format.Ccnb.Packet
import NameRelay.Proofs.Packet.Framed

/-!
# CCNB packets among other bytes

No length stands in front of a CCNB packet: it ends where its outermost element is closed. Two things
keep it apart from the bytes behind it. Its readers take their bytes off the front, element by
element. And a value, which is looked up by its place in the whole buffer, always lies in what was
read, so two buffers that agree so far read the same.
-/

namespace NameRelay.Ccnb

open Cursor (Frames)

/-! ## Tokens and elements -/

theorem frames_headerFrom (fuel number : Nat) (b : UInt8) (c : Cursor) :
    Frames (headerFrom fuel number b) c := by
  induction fuel generalizing number b c with
  | zero => exact Frames.error _
  | succ fuel ih =>
    have heq : headerFrom (fuel + 1) number b = fun c =>
        if 128 ≤ b.toNat then
          .ok (.element (number * 16 + b.toNat / 8 % 16) (b.toNat % 8), c)
        else
          c.byte >>= fun r => headerFrom fuel (number * 128 + b.toNat) r.1 r.2 := by
      funext c
      rw [headerFrom]
      cases c.byte <;> rfl
    rw [heq]
    exact Frames.ite (fun _ => Frames.pure _) fun _ =>
      (Cursor.frames_byte c).bind fun next after _ => ih _ next after

theorem frames_token (c : Cursor) : Frames token c := by
  have heq : token = fun c => c.byte >>= fun r =>
      if r.1 = 0 then .ok (.close, r.2) else headerFrom maxHeaderBytes 0 r.1 r.2 := by
    funext c
    rw [token]
    cases c.byte <;> rfl
  rw [heq]
  exact (Cursor.frames_byte c).bind fun b after _ =>
    Frames.ite (fun _ => Frames.pure _) fun _ => frames_headerFrom maxHeaderBytes 0 b after

theorem frames_untilClosed (depth inner : Nat) (last : Option Span) (c : Cursor) :
    Frames (untilClosed depth inner last) c := by
  induction hn : c.rest.length using Nat.strongRecOn generalizing inner last c with
  | ind n ih =>
  subst hn
  rw [funext (untilClosed_eq depth inner last)]
  refine (frames_token c).bind fun t after ht => ?_
  have hshrinks := token_lt ht
  cases t with
  | close =>
    cases inner with
    | zero => exact Frames.pure last
    | succ inner => exact ih _ hshrinks inner last after rfl
  | element number kind =>
    refine Frames.ite (fun _ => ?_) fun _ => Frames.ite (fun _ => ?_) fun _ => Frames.error _
    · refine (Cursor.frames_split number after).bind fun data next hsplit => ?_
      exact ih _ (Nat.lt_of_le_of_lt (Cursor.split_le hsplit) hshrinks) inner _ next rfl
    · exact Frames.ite (fun _ => Frames.error _) fun _ => ih _ hshrinks _ last after rfl

theorem frames_value (depth : Nat) (c : Cursor) : Frames (value depth) c :=
  frames_untilClosed depth 0 none c

theorem frames_skip (depth number kind : Nat) (c : Cursor) :
    Frames (fun c => (skip depth number kind c).map ((), ·)) c := by
  have heq : (fun c => (skip depth number kind c).map ((), ·)) = fun c =>
      if kind = blobKind ∨ kind = textKind then
        c.split number >>= fun r => .ok ((), r.2)
      else if kind = tagKind ∨ kind = attributeKind then
        value (depth + 1) c >>= fun r => .ok ((), r.2)
      else
        .error (.malformed .unsupportedToken) := by
    funext c
    rw [skip]
    split
    · cases c.split number <;> rfl
    · split
      · cases value (depth + 1) c <;> rfl
      · rfl
  rw [heq]
  exact Frames.ite
    (fun _ => (Cursor.frames_split number c).bind fun _ _ _ => Frames.pure _)
    fun _ => Frames.ite (fun _ => (frames_value _ c).bind fun _ _ _ => Frames.pure _)
      fun _ => Frames.error _

/-- The value of an element lies in the bytes that were read. -/
theorem untilClosed_within {depth inner : Nat} {last v : Option Span} {c next : Cursor}
    (h : untilClosed depth inner last c = .ok (v, next))
    (hlast : ∀ s, last = some s → s.Within c.stop) : ∀ s, v = some s → s.Within c.stop := by
  fun_induction untilClosed depth inner last c with
  | case1 => cases h
  | case2 =>
    cases h
    exact hlast
  | case3 last c next ht inner ih =>
    have hstop := (frames_token c).stop_eq ht
    rw [← hstop] at hlast ⊢
    exact ih h hlast
  | case4 => cases h
  | case5 inner last c number kind next ht _ data after hs ih =>
    have hstop := (frames_token c).stop_eq ht
    have hafter := (Cursor.frames_split number next).stop_eq hs
    obtain ⟨hpos, hrest, -, -⟩ := Cursor.split_eq hs
    rw [← hstop, ← hafter]
    refine ih h fun s hdata => ?_
    cases hdata
    rw [hafter]
    simp only [Span.Within, Cursor.span, Cursor.stop, hpos, hrest, List.length_append]
    omega
  | case6 => cases h
  | case7 inner last c number kind next ht _ _ _ ih =>
    have hstop := (frames_token c).stop_eq ht
    rw [← hstop] at hlast ⊢
    exact ih h hlast
  | case8 => cases h

theorem value_within {depth : Nat} {s : Span} {c next : Cursor}
    (h : value depth c = .ok (some s, next)) : s.Within c.stop :=
  untilClosed_within h (fun _ hnone => by cases hnone) s rfl

/-! ## Names and fields -/

theorem frames_readName (packet : Bytes) (name : Name) (c : Cursor) :
    Frames (readName packet name) c := by
  induction hn : c.rest.length using Nat.strongRecOn generalizing name c with
  | ind n ih =>
  subst hn
  rw [funext (readName_eq packet name)]
  refine (frames_token c).bind fun t after ht => ?_
  have hshrinks := token_lt ht
  cases t with
  | close => exact Frames.pure _
  | element number kind =>
    refine Frames.ite (fun _ => ?_) fun _ => ?_
    · refine (frames_value 2 after).bind fun v next hv => Frames.lift fun longer _ => ?_
      exact ih _ (Nat.lt_of_le_of_lt (value_le hv) hshrinks) longer next rfl
    · refine (frames_skip 2 number kind after).behind fun next hs => ?_
      exact ih _ (Nat.lt_of_le_of_lt (skip_le hs) hshrinks) name next rfl

theorem frames_readSignedInfo (packet : Bytes) (d : CcnbDetails) (c : Cursor) :
    Frames (readSignedInfo packet d) c := by
  induction hn : c.rest.length using Nat.strongRecOn generalizing d c with
  | ind n ih =>
  subst hn
  rw [funext (readSignedInfo_eq packet d)]
  refine (frames_token c).bind fun t after ht => ?_
  have hshrinks := token_lt ht
  cases t with
  | close => exact Frames.pure _
  | element number kind =>
    refine Frames.ite (fun _ => ?_) fun _ => Frames.ite (fun _ => ?_) fun _ => ?_
    · refine (frames_value 2 after).bind fun v next hv => ?_
      exact ih _ (Nat.lt_of_le_of_lt (value_le hv) hshrinks) _ next rfl
    · refine (frames_value 2 after).bind fun v next hv => ?_
      exact ih _ (Nat.lt_of_le_of_lt (value_le hv) hshrinks) _ next rfl
    · refine (frames_skip 2 number kind after).behind fun next hs => ?_
      exact ih _ (Nat.lt_of_le_of_lt (skip_le hs) hshrinks) d next rfl

theorem frames_readField (packet : Bytes) (draft : Draft) (tag : Nat) (c : Cursor) :
    Frames (readField packet draft tag) c := by
  unfold readField
  refine Frames.ite (fun _ => ?_) fun _ => Frames.ite (fun _ => ?_) fun _ => ?_
  · exact (frames_readName packet _ c).bind fun _ _ _ => Frames.pure _
  · exact (frames_readSignedInfo packet _ c).bind fun _ _ _ => Frames.pure _
  · refine (frames_value 1 c).bind fun v next _ => Frames.ite (fun _ => Frames.pure _) fun _ => ?_
    exact Frames.lift fun details _ => Frames.pure _

theorem frames_readFields (packet : Bytes) (draft : Draft) (c : Cursor) :
    Frames (readFields packet draft) c := by
  induction hn : c.rest.length using Nat.strongRecOn generalizing draft c with
  | ind n ih =>
  subst hn
  rw [funext (readFields_eq packet draft)]
  refine (frames_token c).bind fun t after ht => ?_
  have hshrinks := token_lt ht
  cases t with
  | close => exact Frames.pure _
  | element number kind =>
    refine Frames.ite (fun _ => ?_) fun _ => ?_
    · refine (frames_readField packet draft number after).bind fun further next hf => ?_
      exact ih _ (Nat.lt_of_le_of_lt (readField_le hf) hshrinks) further next rfl
    · refine (frames_skip 1 number kind after).behind fun next hs => ?_
      exact ih _ (Nat.lt_of_le_of_lt (skip_le hs) hshrinks) draft next rfl

/-! ## Buffers that agree on what is read -/

/-- The two buffers hold the same in every stretch of their first `n` bytes. -/
def Agree (packet other : Bytes) (n : Nat) : Prop :=
  ∀ s : Span, s.Within n → s.of packet = s.of other

theorem agree_append (packet behind : Bytes) : Agree (packet ++ behind) packet packet.length :=
  fun _ h => h.of_append behind

section Agreement

variable {packet other : Bytes} {c : Cursor}

theorem skip_stop {depth number kind : Nat} {next : Cursor}
    (h : skip depth number kind c = .ok next) : next.stop = c.stop :=
  (frames_skip depth number kind c).stop_eq (a := ()) (by rw [h]; rfl)

theorem Agree.valueBytes (hagree : Agree packet other c.stop) {depth : Nat} {v : Option Span}
    {next : Cursor} (h : value depth c = .ok (v, next)) :
    valueBytes packet v = valueBytes other v := by
  cases v with
  | none => rfl
  | some s => exact hagree s (value_within h)

theorem Agree.readName (hagree : Agree packet other c.stop) (name : Name) :
    readName packet name c = readName other name c := by
  induction hn : c.rest.length using Nat.strongRecOn generalizing name c with
  | ind n ih =>
  subst hn
  rw [readName_eq, readName_eq]
  refine bind_congr_ok fun ⟨t, after⟩ ht => ?_
  have hshrinks := token_lt ht
  rw [← (frames_token c).stop_eq ht] at hagree
  cases t with
  | close => rfl
  | element number kind =>
    refine ite_congr rfl (fun _ => bind_congr_ok fun ⟨v, next⟩ hv => ?_)
      fun _ => bind_congr_ok fun next hs => ?_
    · dsimp only
      rw [hagree.valueBytes hv]
      rw [← (frames_value 2 after).stop_eq hv] at hagree
      exact bind_congr_ok fun longer _ =>
        ih _ (Nat.lt_of_le_of_lt (value_le hv) hshrinks) hagree longer rfl
    · rw [← skip_stop hs] at hagree
      exact ih _ (Nat.lt_of_le_of_lt (skip_le hs) hshrinks) hagree name rfl

theorem Agree.readSignedInfo (hagree : Agree packet other c.stop) (d : CcnbDetails) :
    readSignedInfo packet d c = readSignedInfo other d c := by
  induction hn : c.rest.length using Nat.strongRecOn generalizing d c with
  | ind n ih =>
  subst hn
  rw [readSignedInfo_eq, readSignedInfo_eq]
  refine bind_congr_ok fun ⟨t, after⟩ ht => ?_
  have hshrinks := token_lt ht
  rw [← (frames_token c).stop_eq ht] at hagree
  have hvalue {v : Option Span} {next : Cursor} (hv : value 2 after = .ok (v, next))
      (d : CcnbDetails) : readSignedInfo packet d next = readSignedInfo other d next := by
    rw [← (frames_value 2 after).stop_eq hv] at hagree
    exact ih _ (Nat.lt_of_le_of_lt (value_le hv) hshrinks) hagree d rfl
  cases t with
  | close => rfl
  | element number kind =>
    refine ite_congr rfl (fun _ => bind_congr_ok fun ⟨v, next⟩ hv => ?_) fun _ =>
      ite_congr rfl (fun _ => bind_congr_ok fun ⟨v, next⟩ hv => ?_)
        fun _ => bind_congr_ok fun next hs => ?_
    · dsimp only
      rw [hagree.valueBytes hv, hvalue hv]
    · dsimp only
      rw [hagree.valueBytes hv, hvalue hv]
    · rw [← skip_stop hs] at hagree
      exact ih _ (Nat.lt_of_le_of_lt (skip_le hs) hshrinks) hagree d rfl

theorem Agree.readField (hagree : Agree packet other c.stop) (draft : Draft) (tag : Nat) :
    readField packet draft tag c = readField other draft tag c := by
  unfold Ccnb.readField
  rw [hagree.readName, hagree.readSignedInfo]
  refine ite_congr rfl (fun _ => rfl) fun _ => ite_congr rfl (fun _ => rfl) fun _ => ?_
  refine bind_congr_ok fun ⟨v, next⟩ hv => ?_
  dsimp only
  rw [hagree.valueBytes hv]

/-- What is behind the bytes that are read makes no difference, whether or not they can be read. -/
theorem Agree.readFields (hagree : Agree packet other c.stop) (draft : Draft) :
    readFields packet draft c = readFields other draft c := by
  induction hn : c.rest.length using Nat.strongRecOn generalizing draft c with
  | ind n ih =>
  subst hn
  rw [readFields_eq, readFields_eq]
  refine bind_congr_ok fun ⟨t, after⟩ ht => ?_
  have hshrinks := token_lt ht
  rw [← (frames_token c).stop_eq ht] at hagree
  cases t with
  | close => rfl
  | element number kind =>
    refine ite_congr rfl (fun _ => ?_) fun _ => bind_congr_ok fun next hs => ?_
    · dsimp only
      rw [hagree.readField]
      refine bind_congr_ok fun ⟨further, next⟩ hf => ?_
      rw [← (frames_readField other draft number after).stop_eq hf] at hagree
      exact ih _ (Nat.lt_of_le_of_lt (readField_le hf) hshrinks) hagree further rfl
    · rw [← skip_stop hs] at hagree
      exact ih _ (Nat.lt_of_le_of_lt (skip_le hs) hshrinks) hagree draft rfl

end Agreement

/-! ## What was read fits -/

theorem readName_fits {packet : Bytes} {name read : Name} {c next : Cursor}
    (h : readName packet name c = .ok (read, next)) (hfits : name.Fits .ccnb) : read.Fits .ccnb := by
  fun_induction readName packet name c with
  | case1 => cases h
  | case2 =>
    cases h
    exact hfits.stripMarkers
  | case3 => cases h
  | case4 => cases h
  | case5 name c number kind after _ _ v _ _ longer hpush ih =>
    have hwire : name.readWire (valueBytes packet v) = .ok longer := by rw [Name.readWire, hpush]
    exact ih h (hfits.readWire hwire)
  | case6 => cases h
  | case7 name c number kind after _ _ _ _ ih => exact ih h hfits

theorem readField_found {packet : Bytes} {draft read : Draft} {tag : Nat} {c next : Cursor}
    (h : readField packet draft tag c = .ok (read, next))
    (hfound : Found .ccnb c.stop draft.name draft.content) :
    Found .ccnb c.stop read.name read.content := by
  unfold readField at h
  split at h
  · obtain ⟨⟨name, after⟩, hname, hend⟩ := ok_of_bind h
    cases hend
    exact hfound.withName (readName_fits hname (Name.fits_root .ccnb))
  · split at h
    · obtain ⟨⟨details, after⟩, -, hend⟩ := ok_of_bind h
      cases hend
      exact hfound
    · obtain ⟨⟨v, after⟩, hv, hend⟩ := ok_of_bind h
      dsimp only at hend
      split at hend
      · cases hend
        refine ⟨hfound.name, fun s hs => ?_⟩
        cases hs
        exact value_within hv
      · obtain ⟨details, -, hlast⟩ := ok_of_bind hend
        cases hlast
        exact hfound

theorem readFields_found {packet : Bytes} {draft read : Draft} {c next : Cursor}
    (h : readFields packet draft c = .ok (read, next))
    (hfound : Found .ccnb c.stop draft.name draft.content) :
    Found .ccnb c.stop read.name read.content := by
  fun_induction readFields packet draft c with
  | case1 => cases h
  | case2 =>
    cases h
    exact hfound
  | case3 => cases h
  | case4 draft c number after further last hf ht ih =>
    have hafter := (frames_token c).stop_eq ht
    have hlast := (frames_readField packet draft number after).stop_eq hf
    rw [← hafter] at hfound ⊢
    have hfurther := readField_found hf hfound
    rw [← hlast] at hfurther ⊢
    exact ih h hfurther
  | case5 => cases h
  | case6 draft c number kind after ht hkind last hs ih =>
    rw [← (frames_token c).stop_eq ht, ← skip_stop hs] at hfound ⊢
    exact ih h hfound

/-! ## Whole packets -/

/-- Fields are read the same, out of a buffer of the same bytes, whatever follows them. -/
theorem readFields_behind {front taken rest : Bytes} {draft read : Draft}
    (h : readFields (front ++ taken ++ rest) draft ⟨front.length, taken ++ rest⟩ =
      .ok (read, ⟨(front ++ taken).length, rest⟩)) (behind : Bytes) :
    readFields (front ++ taken ++ behind) draft ⟨front.length, taken ++ behind⟩ =
      .ok (read, ⟨(front ++ taken).length, behind⟩) := by
  -- The reader takes `taken` and no more, so what follows may go from the cursor first; then the
  -- buffer may change behind the cursor's end, and bytes may follow in the cursor again.
  have hframes {packet : Bytes} (rest : Bytes)
      (hread : readFields packet draft ⟨front.length, taken ++ rest⟩ =
        .ok (read, ⟨(front ++ taken).length, rest⟩)) (more : Bytes) :
      readFields packet draft ⟨front.length, taken ++ more⟩ =
        .ok (read, ⟨(front ++ taken).length, more⟩) := by
    obtain ⟨again, hagain, hmore⟩ := frames_readFields packet draft _ hread
    rw [← List.append_cancel_right hagain] at hmore
    rw [List.length_append]
    exact hmore more
  have hstop : (⟨front.length, taken⟩ : Cursor).stop = (front ++ taken).length :=
    List.length_append.symm
  have halone := hframes rest h []
  rw [List.append_nil] at halone
  have hwithout := agree_append (front ++ taken) rest
  have hwith := agree_append (front ++ taken) behind
  rw [← hstop] at hwithout hwith
  rw [hwithout.readFields, ← hwith.readFields] at halone
  exact hframes [] (by rwa [List.append_nil]) behind

/-- The kind of message that a packet's first token opens. -/
def kindOf : Token → Except DecodeError MessageKind
  | .close => .error (.malformed .emptyElement)
  | .element number kind =>
    if number = interestTag ∧ kind = tagKind then .ok .interest
    else if number = contentObjectTag ∧ kind = tagKind then .ok .content
    else .error (.unexpectedType number)

theorem decode_eq (bytes : Bytes) :
    decode bytes = token (.ofBytes bytes) >>= fun t => kindOf t.1 >>= fun kind =>
      readFields bytes {} t.2 >>= fun f =>
        match f.1.name with
        | none => .error .missingName
        | some name => .ok (⟨bytes.take f.2.pos, .message kind name f.1.content,
            .ccnb f.1.details⟩, f.2.pos) := by
  rw [decode]
  refine bind_congr_ok fun opened _ => ?_
  obtain ⟨first, c⟩ := opened
  cases first with
  | close => rfl
  | element number kind =>
    dsimp only [kindOf]
    split
    · rfl
    · split <;> rfl

theorem decode_framed {bytes : Bytes} {p : Packet} {n : Nat} (h : decode bytes = .ok (p, n)) :
    Framed decode .ccnb bytes p n := by
  rw [decode_eq] at h
  obtain ⟨⟨t, c⟩, ht, hhead⟩ := ok_of_bind h
  obtain ⟨kind, hkind, hfields⟩ := ok_of_bind hhead
  obtain ⟨⟨draft, after⟩, hread, hname⟩ := ok_of_bind hfields
  obtain ⟨front, hfront, htoken⟩ := frames_token _ ht
  obtain ⟨taken, htaken, hmore⟩ := frames_readFields bytes {} c hread
  have hc := Frames.after_eq ht hfront htoken
  have hafter := Frames.after_eq hread htaken hmore
  have hshrinks := token_lt ht
  rcases c with ⟨pos, rest⟩
  rcases after with ⟨last, rest'⟩
  simp only [Cursor.ofBytes, Nat.zero_add, Cursor.mk.injEq, and_true] at *
  subst hc htaken hfront hafter
  rw [← List.append_assoc, ← List.length_append] at hread
  have hbehind := readFields_behind hread
  rw [← List.append_assoc, ← List.length_append] at hname
  rw [← List.append_assoc]
  cases hdraft : draft.name with
  | none =>
    rw [hdraft] at hname
    cases hname
  | some name =>
    rw [hdraft] at hname
    cases hname
    have htake (more : Bytes) :
        (front ++ taken ++ more).take (front ++ taken).length = front ++ taken := List.take_left
    have hfound : Found .ccnb (front ++ taken).length draft.name draft.content := by
      have halone := readFields_found (hbehind []) Found.nothing
      rwa [List.append_nil, Cursor.stop, ← List.length_append] at halone
    rw [htake]
    refine Framed.of_front ?_ (fun behind => ?_) rfl rfl hfound.content (hfound.name name hdraft)
    · rintro hnil
      rw [(List.append_eq_nil_iff.1 hnil).1] at hshrinks
      exact absurd hshrinks (Nat.lt_irrefl _)
    · rw [decode_eq, Cursor.ofBytes, List.append_assoc, htoken, ← List.append_assoc]
      simp only [bind, Except.bind, hkind, hbehind, hdraft, htake]

end NameRelay.Ccnb
