-- SUMMARY: CCNB headers and simple fields read back as what was written.
import NameRelay.Format.Ccnb.Token
import NameRelay.Proofs.Wire.Elements

/-!
# CCNB tokens read back

A header has room for eight bytes, seven of which give seven bits of its number and the last gives
four, so every number below `2 ^ 53` reads back.
-/

namespace NameRelay.Ccnb

/-! ## Headers -/

/-- The leading bytes of a header. -/
def highBits (n : Nat) : Bytes :=
  if n = 0 then [] else highBits (n / 128) ++ [UInt8.ofNat (n % 128)]
termination_by n
decreasing_by omega

/-- The bytes of a header. -/
def headerBytes (number kind : Nat) : Bytes :=
  highBits (number / 16) ++ [UInt8.ofNat (128 + number % 16 * 8 + kind)]

theorem puts_writeHighBits (n : Nat) : Write.Puts (writeHighBits n) () (highBits n) True := by
  fun_induction highBits n with
  | case1 =>
    rw [writeHighBits, if_pos rfl]
    exact Write.puts_pure ()
  | case2 n hn ih =>
    rw [writeHighBits, if_neg hn]
    exact ((Write.puts_byte _).andThen ih).congr rfl (and_self_iff)

theorem puts_writeHeader (number kind : Nat) :
    Write.Puts (writeHeader number kind) () (headerBytes number kind) True :=
  ((Write.puts_byte _).andThen (puts_writeHighBits _)).congr rfl (and_self_iff)

theorem toNat_low (n : Nat) : (UInt8.ofNat (n % 128)).toNat = n % 128 := by
  rw [UInt8.toNat_ofNat']
  omega

theorem lt_of_mem_highBits {n : Nat} {b : UInt8} (h : b ∈ highBits n) : b.toNat < 128 := by
  fun_induction highBits n with
  | case1 => cases h
  | case2 n hn ih =>
    rcases List.mem_append.1 h with hhigh | hlow
    · exact ih hhigh
    · rw [List.mem_singleton.1 hlow, toNat_low]
      omega

theorem foldl_highBits (n : Nat) : (highBits n).foldl (fun n b => n * 128 + b.toNat) 0 = n := by
  fun_induction highBits n with
  | case1 => rfl
  | case2 n hn ih =>
    rw [List.foldl_append, ih, List.foldl_cons, List.foldl_nil, toNat_low]
    omega

theorem length_highBits_le {n k : Nat} (h : n < 128 ^ k) : (highBits n).length ≤ k := by
  induction k generalizing n with
  | zero =>
    have hzero : n = 0 := by omega
    rw [highBits, if_pos hzero]
    exact Nat.le_refl 0
  | succ k ih =>
    rw [highBits]
    split
    · exact Nat.zero_le _
    · have hhigh : n / 128 < 128 ^ k := by
        apply Nat.div_lt_of_lt_mul
        rwa [Nat.mul_comm, ← Nat.pow_succ]
      rw [List.length_append, List.length_singleton]
      exact Nat.succ_le_succ (ih hhigh)

/-- The first of the leading bytes is not the byte that closes an element. -/
theorem head_highBits {n : Nat} {b : UInt8} {rest : Bytes} (h : highBits n = b :: rest) : b ≠ 0 := by
  fun_induction highBits n generalizing rest with
  | case1 => cases h
  | case2 n hn ih =>
    cases hhigh : highBits (n / 128) with
    | nil =>
      rw [hhigh, List.nil_append, List.cons.injEq] at h
      have hzero : n / 128 = 0 := by
        have hvalue := foldl_highBits (n / 128)
        rw [hhigh] at hvalue
        exact hvalue.symm
      intro hb
      have hlow := toNat_low n
      rw [h.1, hb, UInt8.toNat_zero] at hlow
      omega
    | cons c tail =>
      rw [hhigh, List.cons_append, List.cons.injEq] at h
      rw [h.1] at hhigh
      exact ih hhigh

/-- Leading bytes and a last byte are read as one number. -/
theorem headerFrom_append {high : Bytes} (hhigh : ∀ b ∈ high, b.toNat < 128) {last : UInt8}
    (hlast : 128 ≤ last.toNat) {fuel : Nat} (hfuel : high.length < fuel) (number pos : Nat)
    (rest : Bytes) {b : UInt8} {tail : Bytes} (h : high ++ last :: rest = b :: tail) :
    headerFrom fuel number b ⟨pos, tail⟩ =
      .ok (.element (high.foldl (fun n b => n * 128 + b.toNat) number * 16 + last.toNat / 8 % 16)
        (last.toNat % 8), ⟨pos + high.length, rest⟩) := by
  induction high generalizing fuel number pos b tail with
  | nil =>
    obtain ⟨rfl, rfl⟩ := List.cons.inj h
    cases fuel with
    | zero => cases hfuel
    | succ fuel =>
      rw [headerFrom, if_pos hlast]
      rfl
  | cons first high ih =>
    obtain ⟨rfl, htail⟩ := List.cons.inj h
    cases fuel with
    | zero => cases hfuel
    | succ fuel =>
      have hlow : ¬128 ≤ first.toNat := Nat.not_le_of_lt (hhigh first List.mem_cons_self)
      rw [headerFrom, if_neg hlow]
      cases tail with
      | nil => cases (List.append_eq_nil_iff.1 htail).2
      | cons next more =>
        have hmore := ih (fun b hb => hhigh b (List.mem_cons_of_mem first hb))
          (Nat.lt_of_succ_lt_succ hfuel) (number * 128 + first.toNat) (pos + 1) htail
        simp only [Cursor.byte]
        rw [hmore, List.foldl_cons, List.length_cons, Nat.add_assoc, Nat.add_comm 1]

/-- The last byte of a header is its own. -/
theorem toNat_last (number : Nat) {kind : Nat} (hkind : kind < 8) :
    (UInt8.ofNat (128 + number % 16 * 8 + kind)).toNat = 128 + number % 16 * 8 + kind := by
  rw [UInt8.toNat_ofNat']
  omega

/-- A header does not begin with the byte that closes an element. -/
theorem head_headerBytes {number kind : Nat} (hkind : kind < 8) {more tail : Bytes} {b : UInt8}
    (h : headerBytes number kind ++ more = b :: tail) : b ≠ 0 := by
  rw [headerBytes] at h
  cases hhigh : highBits (number / 16) with
  | nil =>
    rw [hhigh, List.nil_append, List.singleton_append, List.cons.injEq] at h
    have hlast := toNat_last number hkind
    intro hb
    rw [h.1, hb, UInt8.toNat_zero] at hlast
    omega
  | cons c high =>
    rw [hhigh, List.cons_append, List.cons_append, List.cons.injEq] at h
    rw [h.1] at hhigh
    exact head_highBits hhigh

/-- A header reads back. -/
theorem token_headerBytes {number kind : Nat} (hnumber : number < 2 ^ 53) (hkind : kind < 8)
    (pos : Nat) (rest : Bytes) :
    token ⟨pos, headerBytes number kind ++ rest⟩ =
      .ok (.element number kind, ⟨pos + (headerBytes number kind).length, rest⟩) := by
  have hlast := toNat_last number hkind
  have hlength : (highBits (number / 16)).length < maxHeaderBytes := by
    have hle := @length_highBits_le (number / 16) 7 (by omega)
    rw [maxHeaderBytes]
    omega
  cases hbytes : headerBytes number kind ++ rest with
  | nil => simp [headerBytes] at hbytes
  | cons b tail =>
    have hopen := head_headerBytes hkind hbytes
    rw [headerBytes, List.append_assoc, List.singleton_append] at hbytes
    have hread := headerFrom_append (fun _ => lt_of_mem_highBits) (by omega) hlength 0 (pos + 1)
      rest hbytes
    have hnumber' : number / 16 * 16 + (128 + number % 16 * 8 + kind) / 8 % 16 = number := by omega
    have hkind' : (128 + number % 16 * 8 + kind) % 8 = kind := by omega
    rw [foldl_highBits, hlast, hnumber', hkind'] at hread
    simp only [token, Cursor.byte, if_neg hopen, hread, headerBytes, List.length_append,
      List.length_singleton]
    congr 3
    omega

/-! ## Simple fields -/

theorem token_close (pos : Nat) (rest : Bytes) :
    token ⟨pos, 0 :: rest⟩ = .ok (.close, ⟨pos + 1, rest⟩) := rfl

/-- Reading up to the end of an element is reading a token and going on from it. -/
theorem untilClosed_eq (depth inner : Nat) (last : Option Span) (c : Cursor) :
    untilClosed depth inner last c = token c >>= fun r =>
      match r.1 with
      | .close =>
        match inner with
        | 0 => .ok (last, r.2)
        | inner + 1 => untilClosed depth inner last r.2
      | .element number kind =>
        if kind = blobKind ∨ kind = textKind then
          r.2.split number >>= fun d => untilClosed depth inner (some d.1.span) d.2
        else if kind = tagKind ∨ kind = attributeKind then
          if depth + inner + 1 > maxDepth then .error (.malformed .nestingTooDeep)
          else untilClosed depth (inner + 1) last r.2
        else
          .error (.malformed .unsupportedToken) := by
  rw [untilClosed]
  split
  · rename_i h
    rw [h]
    rfl
  · rename_i h
    rw [h]
    cases inner <;> rfl
  · rename_i number kind next h
    rw [h]
    change _ = if kind = blobKind ∨ kind = textKind then
      next.split number >>= fun d => untilClosed depth inner (some d.1.span) d.2 else _
    split
    · cases next.split number <;> rfl
    · rfl

theorem untilClosed_close {c next : Cursor} (h : token c = .ok (.close, next)) (depth : Nat)
    (last : Option Span) : untilClosed depth 0 last c = .ok (last, next) := by
  rw [untilClosed_eq, h]
  rfl

theorem untilClosed_data {c next data after : Cursor} {number kind : Nat}
    (h : token c = .ok (.element number kind, next)) (hkind : kind = blobKind ∨ kind = textKind)
    (hsplit : next.split number = .ok (data, after)) (depth inner : Nat) (last : Option Span) :
    untilClosed depth inner last c = untilClosed depth inner (some data.span) after := by
  rw [untilClosed_eq, h]
  refine (if_pos hkind).trans ?_
  rw [hsplit]
  rfl

/-- The bytes of a data element and of the end of the element around it. -/
def dataBytes (kind : Nat) (data : Bytes) : Bytes := headerBytes data.length kind ++ (data ++ [0])

/-- The bytes of a tagged element that holds one data element. -/
def fieldBytes (tag kind : Nat) (data : Bytes) : Bytes := headerBytes tag tagKind ++ dataBytes kind data

theorem puts_writeField (tag kind : Nat) (data : Bytes) :
    Write.Puts (writeField tag kind data) () (fieldBytes tag kind data) True := by
  have hall := (Write.puts_byte 0).andThen <| (Write.puts_bytes data).andThen <|
    (puts_writeHeader data.length kind).andThen (puts_writeHeader tag tagKind)
  refine hall.congr ?_ ?_
  · simp [fieldBytes, dataBytes]
  · simp

theorem length_le_fieldBytes (tag kind : Nat) (data : Bytes) :
    data.length ≤ (fieldBytes tag kind data).length := by
  simp only [fieldBytes, dataBytes, List.length_append]
  omega

/-- The data of a simple field is its value. -/
theorem value_dataBytes {kind : Nat} (hkind : kind = blobKind ∨ kind = textKind) {data : Bytes}
    (hlength : data.length < 2 ^ 53) (depth : Nat) {pos : Nat} {rest whole : Bytes}
    (hin : (⟨pos, dataBytes kind data ++ rest⟩ : Cursor).In whole) :
    ∃ span : Span, value depth ⟨pos, dataBytes kind data ++ rest⟩ =
      .ok (some span, ⟨pos + (dataBytes kind data).length, rest⟩) ∧ span.of whole = data := by
  have hsmall : kind < 8 := by
    rcases hkind with rfl | rfl <;> decide
  have hbytes : dataBytes kind data ++ rest =
      headerBytes data.length kind ++ (data ++ (0 :: rest)) := by
    simp [dataBytes]
  rw [hbytes] at hin ⊢
  let start := pos + (headerBytes data.length kind).length
  have hheader := token_headerBytes hlength hsmall pos (data ++ (0 :: rest))
  have hsplit : Cursor.split ⟨start, data ++ (0 :: rest)⟩ data.length =
      .ok (⟨start, data⟩, ⟨start + data.length, 0 :: rest⟩) := by
    simp [Cursor.split, Cursor.remaining, Cursor.advance]
  refine ⟨Cursor.span ⟨start, data⟩, ?_, Cursor.span_of hin.drop.take⟩
  rw [value, untilClosed_data hheader hkind hsplit, untilClosed_close (token_close _ rest)]
  simp only [dataBytes, List.length_append, List.length_singleton, start, Nat.add_assoc]

end NameRelay.Ccnb
