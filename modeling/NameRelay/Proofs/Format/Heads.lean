-- SUMMARY: Heads of variable width read back as what was written and begin with no reserved byte.
import NameRelay.Proofs.Format.Ccnb.Token
import NameRelay.Wire.Switch

/-!
# Heads of variable width

Three heads are as wide as their numbers need: a number by itself, the compact head of IOT elements,
and the header of CCNB elements. `Returned` says that a writer and a reader of a head agree: all
bytes that are written are read, as what was written, and none of those behind them. Two of the heads
also keep clear of a byte that means something else where a head may stand, the mark of an encoding
switch and the end of an element.
-/

namespace NameRelay

/-- The action writes `bs`, and fails only if there is no room for it. Wherever `bs` stands and
whatever follows, it is read as `a`, and what follows is left. -/
structure Returned {α : Type} (write : Write Unit)
    (read : Cursor → Except DecodeError (α × Cursor)) (a : α) (bs : Bytes) : Prop where
  written : Write.Puts write () bs True
  taken : ∀ pos rest, read ⟨pos, bs ++ rest⟩ = .ok (a, ⟨pos + bs.length, rest⟩)

/-- A compact head is one byte or begins with a zero byte, and neither is the mark of a switch. -/
theorem Tlv.Form.head?_compactBytes (type length : Nat) :
    (compactBytes type length).head? ≠ some Switch.mark := by
  unfold compactBytes
  split
  · rename_i h
    obtain ⟨htype, hlength, -, hmark⟩ := h
    intro hhead
    have hbyte : (UInt8.ofNat (type * 64 + length)).toNat = 128 :=
      congrArg UInt8.toNat (Option.some.inj hhead)
    rw [UInt8.toNat_ofNat'] at hbyte
    apply hmark
    rw [Prod.mk.injEq]
    omega
  · rw [List.head?_cons]
    decide

/-- Every number of 64 bits, every compact head, and every CCNB header with a number below `2 ^ 53`
    and any kind of three bits is read as what was written. No compact head begins with the mark of a
    switch, and no header with the byte that closes an element. -/
theorem heads_return :
    (∀ n : UInt64, ∃ bs, Returned (Write.varNumber n.toNat) Cursor.varNumber n.toNat bs) ∧
    (∀ type length : UInt64, ∃ bs, bs.head? ≠ some Switch.mark ∧
      Returned (Tlv.writeCompactHead type.toNat length.toNat) Tlv.Head.compact.read
        (type.toNat, length.toNat) bs) ∧
    (∀ number < 2 ^ 53, ∀ kind < 8, ∃ bs, bs.head? ≠ some 0 ∧
      Returned (Ccnb.writeHeader number kind) Ccnb.token (.element number kind) bs) := by
  refine ⟨fun n => ?_, fun type length => ?_, fun number hnumber kind hkind => ?_⟩
  · exact ⟨_, Write.puts_varNumber _, varNumber_varNumberBytes n.toNat_lt⟩
  · exact ⟨_, Tlv.Form.head?_compactBytes _ _, Tlv.Form.puts_writeCompactHead _ _,
      Tlv.Form.read_compactBytes type.toNat_lt length.toNat_lt⟩
  · refine ⟨_, fun hhead => ?_, Ccnb.puts_writeHeader number kind,
      Ccnb.token_headerBytes hnumber hkind⟩
    obtain ⟨tail, hbytes⟩ := List.head?_eq_some_iff.1 hhead
    exact Ccnb.head_headerBytes hkind ((List.append_nil _).trans hbytes) rfl

/-- The largest number there is room for in the header of a text. -/
theorem largest_header_returns :
    2 ^ 53 - 1 < 2 ^ 53 ∧ Ccnb.textKind < 8 ∧ ∃ bs, bs.head? ≠ some 0 ∧
      Returned (Ccnb.writeHeader (2 ^ 53 - 1) Ccnb.textKind) Ccnb.token
        (.element (2 ^ 53 - 1) Ccnb.textKind) bs :=
  ⟨by decide, by decide, heads_return.2.2 (2 ^ 53 - 1) (by decide) Ccnb.textKind (by decide)⟩

end NameRelay
