-- SUMMARY: CCNB interests and contents, read and written.
import NameRelay.Format.Ccnb.Token
import NameRelay.Packet.Basic
import NameRelay.Wire.Scratch

/-!
# CCNB packets

A packet is one tagged element with fields in any order. A field that is not known is skipped.
Nonce and publisher key keep their first value, the other fields their last; a publisher key in
the signed part replaces one outside it.
-/

namespace NameRelay.Ccnb

-- ---------------------------------------------------------------------------
-- Tags
-- ---------------------------------------------------------------------------

def nameTag : Nat := 14
def componentTag : Nat := 15
def contentTag : Nat := 19
def signedInfoTag : Nat := 20
def interestTag : Nat := 26
def nonceTag : Nat := 41
def scopeTag : Nat := 42
def answerOriginKindTag : Nat := 47
def finalBlockTag : Nat := 59
def publisherKeyTag : Nat := 60
def contentObjectTag : Nat := 64
def minSuffixTag : Nat := 83
def maxSuffixTag : Nat := 84

-- ---------------------------------------------------------------------------
-- Reading
-- ---------------------------------------------------------------------------

/-- The number that a string of decimal digits writes. -/
def decimal? (bs : Bytes) : Except DecodeError UInt64 :=
  if bs.isEmpty ∨ ¬ bs.all (fun b => 0x30 ≤ b ∧ b ≤ 0x39) then
    .error (.malformed .selectorNotDecimal)
  else
    let n := bs.foldl (fun n b => n * 10 + (b.toNat - 0x30)) 0
    if n ≤ word64Max then .ok (UInt64.ofNat n) else .error (.malformed .selectorOutOfRange)

/-- The bytes of a value, none at all if the element held no data. -/
def valueBytes (packet : Bytes) (value : Option Span) : Bytes :=
  match value with
  | some span => span.of packet
  | none => []

/-- Reads the components up to the end of a name. -/
def readName (packet : Bytes) (name : Name) (c : Cursor) : Except DecodeError (Name × Cursor) :=
  match _h : token c with
  | .error e => .error e
  | .ok (.close, next) => .ok (name.stripMarkers, next)
  | .ok (.element number kind, next) =>
    if number = componentTag ∧ kind = tagKind then
      match _hv : value 2 next with
      | .error e => .error e
      | .ok (v, next) =>
        match name.pushWire (valueBytes packet v) with
        | .error _ => .error .tooManyComponents
        | .ok name => readName packet name next
    else
      match _hs : skip 2 number kind next with
      | .error e => .error e
      | .ok next => readName packet name next
termination_by c.rest.length
decreasing_by
  all_goals have := token_lt _h
  · exact Nat.lt_of_le_of_lt (value_le _hv) this
  · exact Nat.lt_of_le_of_lt (skip_le _hs) this

/-- Reads the signed part of a content. -/
def readSignedInfo (packet : Bytes) (d : CcnbDetails) (c : Cursor) :
    Except DecodeError (CcnbDetails × Cursor) :=
  match _h : token c with
  | .error e => .error e
  | .ok (.close, next) => .ok (d, next)
  | .ok (.element number kind, next) =>
    if number = finalBlockTag ∧ kind = tagKind then
      match _hv : value 2 next with
      | .error e => .error e
      | .ok (v, next) =>
        let block := Component.chunk? .ccnb (valueBytes packet v)
        readSignedInfo packet { d with finalBlock := block } next
    else if number = publisherKeyTag ∧ kind = tagKind then
      match _hv : value 2 next with
      | .error e => .error e
      | .ok (v, next) =>
        readSignedInfo packet { d with publisherKey := some (valueBytes packet v) } next
    else
      match _hs : skip 2 number kind next with
      | .error e => .error e
      | .ok next => readSignedInfo packet d next
termination_by c.rest.length
decreasing_by
  all_goals have := token_lt _h
  · exact Nat.lt_of_le_of_lt (value_le _hv) this
  · exact Nat.lt_of_le_of_lt (value_le _hv) this
  · exact Nat.lt_of_le_of_lt (skip_le _hs) this

/-- What the fields of a packet have said so far. -/
structure Draft where
  name : Option Name := none
  content : Option Span := none
  details : CcnbDetails := {}
  deriving Repr

/-- The scope in a value: one of the digits 0 to 2 confines the interest, any other byte is
    invalid, and a value of another length says nothing. -/
def scopeOf (current : Option UInt8) (v : Bytes) : Option UInt8 :=
  match v with
  | [b] => if 0x30 ≤ b ∧ b ≤ 0x32 then some (b - 0x30) else none
  | _ => current

/-- Takes the value of a simple field into the details. -/
def withField (d : CcnbDetails) (tag : Nat) (v : Bytes) : Except DecodeError CcnbDetails := do
  if tag = scopeTag then
    return { d with scope := scopeOf d.scope v }
  else if tag = answerOriginKindTag then
    return { d with answerOriginKind := (← decimal? v).toUInt32 }
  else if tag = minSuffixTag then
    return { d with minSuffix := ← decimal? v }
  else if tag = maxSuffixTag then
    return { d with maxSuffix := ← decimal? v }
  else if tag = nonceTag then
    return { d with nonce := d.nonce <|> some v }
  else if tag = publisherKeyTag then
    return { d with publisherKey := d.publisherKey <|> some v }
  else
    return d

/-- Reads one tagged field, header already taken. -/
def readField (packet : Bytes) (draft : Draft) (tag : Nat) (c : Cursor) :
    Except DecodeError (Draft × Cursor) := do
  if tag = nameTag then
    let (name, c) ← readName packet (.root .ccnb) c
    return ({ draft with name := some name }, c)
  else if tag = signedInfoTag then
    let (details, c) ← readSignedInfo packet draft.details c
    return ({ draft with details }, c)
  else
    let (v, c) ← value 1 c
    if tag = contentTag then
      return ({ draft with content := v }, c)
    else
      let details ← withField draft.details tag (valueBytes packet v)
      return ({ draft with details }, c)

theorem readName_le {packet : Bytes} {name n : Name} {c c' : Cursor}
    (h : readName packet name c = .ok (n, c')) : c'.rest.length ≤ c.rest.length := by
  fun_induction readName packet name c with
  | case1 => simp at h
  | case2 _ _ _ ht =>
    simp only [Except.ok.injEq, Prod.mk.injEq] at h
    rw [← h.2]
    exact Nat.le_of_lt (token_lt ht)
  | case3 => simp at h
  | case4 => simp at h
  | case5 _ _ _ _ _ ht _ _ _ hv _ _ ih =>
    exact Nat.le_trans (ih h) (Nat.le_trans (value_le hv) (Nat.le_of_lt (token_lt ht)))
  | case6 => simp at h
  | case7 _ _ _ _ _ ht _ _ hs ih =>
    exact Nat.le_trans (ih h) (Nat.le_trans (skip_le hs) (Nat.le_of_lt (token_lt ht)))

theorem readSignedInfo_le {packet : Bytes} {d d' : CcnbDetails} {c c' : Cursor}
    (h : readSignedInfo packet d c = .ok (d', c')) : c'.rest.length ≤ c.rest.length := by
  fun_induction readSignedInfo packet d c with
  | case1 => simp at h
  | case2 _ _ _ ht =>
    simp only [Except.ok.injEq, Prod.mk.injEq] at h
    rw [← h.2]
    exact Nat.le_of_lt (token_lt ht)
  | case3 => simp at h
  | case4 _ _ _ _ _ ht _ _ _ hv _ ih =>
    exact Nat.le_trans (ih h) (Nat.le_trans (value_le hv) (Nat.le_of_lt (token_lt ht)))
  | case5 => simp at h
  | case6 _ _ _ _ _ ht _ _ _ _ hv ih =>
    exact Nat.le_trans (ih h) (Nat.le_trans (value_le hv) (Nat.le_of_lt (token_lt ht)))
  | case7 => simp at h
  | case8 _ _ _ _ _ ht _ _ _ hs ih =>
    exact Nat.le_trans (ih h) (Nat.le_trans (skip_le hs) (Nat.le_of_lt (token_lt ht)))

theorem readField_le {packet : Bytes} {draft d : Draft} {tag : Nat} {c c' : Cursor}
    (h : readField packet draft tag c = .ok (d, c')) : c'.rest.length ≤ c.rest.length := by
  unfold readField at h
  split at h
  · cases hn : readName packet (.root .ccnb) c with
    | error e => simp [hn, bind, Except.bind] at h
    | ok r =>
      simp only [hn, bind, Except.bind, pure, Except.pure, Except.ok.injEq, Prod.mk.injEq] at h
      rw [← h.2]
      exact readName_le hn
  · split at h
    · cases hs : readSignedInfo packet draft.details c with
      | error e => simp [hs, bind, Except.bind] at h
      | ok r =>
        simp only [hs, bind, Except.bind, pure, Except.pure, Except.ok.injEq, Prod.mk.injEq] at h
        rw [← h.2]
        exact readSignedInfo_le hs
    · cases hv : value 1 c with
      | error e => simp [hv, bind, Except.bind] at h
      | ok r =>
        simp only [hv, bind, Except.bind, pure, Except.pure] at h
        split at h
        · simp only [Except.ok.injEq, Prod.mk.injEq] at h
          rw [← h.2]
          exact value_le hv
        · split at h
          · simp at h
          · simp only [Except.ok.injEq, Prod.mk.injEq] at h
            rw [← h.2]
            exact value_le hv

/-- Reads fields up to the end of the packet. -/
def readFields (packet : Bytes) (draft : Draft) (c : Cursor) :
    Except DecodeError (Draft × Cursor) :=
  match _h : token c with
  | .error e => .error e
  | .ok (.close, next) => .ok (draft, next)
  | .ok (.element number kind, next) =>
    if kind = tagKind then
      match _hf : readField packet draft number next with
      | .error e => .error e
      | .ok (draft, next) => readFields packet draft next
    else
      match _hs : skip 1 number kind next with
      | .error e => .error e
      | .ok next => readFields packet draft next
termination_by c.rest.length
decreasing_by
  all_goals have := token_lt _h
  · exact Nat.lt_of_le_of_lt (readField_le _hf) this
  · exact Nat.lt_of_le_of_lt (skip_le _hs) this

/-- Reads the packet at the front of `bytes`; the number is how many bytes it takes. -/
def decode (bytes : Bytes) : Except DecodeError (Packet × Nat) := do
  let (head, c) ← token (.ofBytes bytes)
  let kind : MessageKind ← match head with
    | .close => throw (.malformed .emptyElement)
    | .element number kind =>
      if number = interestTag ∧ kind = tagKind then pure .interest
      else if number = contentObjectTag ∧ kind = tagKind then pure .content
      else throw (.unexpectedType number)
  let (draft, c) ← readFields bytes {} c
  match draft.name with
  | none => throw .missingName
  | some name =>
    return (⟨bytes.take c.pos, .message kind name draft.content, .ccnb draft.details⟩, c.pos)

-- ---------------------------------------------------------------------------
-- Writing
-- ---------------------------------------------------------------------------

/-- The decimal digits of a number as bytes. -/
def decimalBytes (n : Nat) : Bytes := (Nat.toDigits 10 n).map fun c => UInt8.ofNat c.toNat

def writeName (name : Name) : Write Unit := do
  Write.byte 0
  Write.components name (writeField componentTag blobKind)
  writeHeader nameTag tagKind

def encodeInterest (name : Name) (o : InterestOptions) : Except EncodeError Bytes :=
  Write.packet name 0 do
    Write.byte 0
    Write.optional o.nonce (writeField nonceTag blobKind)
    Write.optional o.scope fun n => writeField scopeTag textKind (decimalBytes n.toNat)
    Write.optional o.publisherKey (writeField publisherKeyTag blobKind)
    Write.optional o.maxSuffix fun n => writeField maxSuffixTag textKind (decimalBytes n.toNat)
    Write.optional o.minSuffix fun n => writeField minSuffixTag textKind (decimalBytes n.toNat)
    writeName name
    writeHeader interestTag tagKind

/-- The last chunk number, in the signed part. -/
def writeFinalBlock (block : UInt32) : Write Unit := do
  match Component.ofChunk .ccnb block with
  | .error _ => throw (.unsupported .ccnb)
  | .ok component =>
    Write.byte 0
    writeField finalBlockTag blobKind component
    writeHeader signedInfoTag tagKind

def encodeContent (name : Name) (payload : Bytes) (o : ContentOptions) :
    Except EncodeError Bytes :=
  Write.packet name payload.length do
    Write.byte 0
    writeField contentTag blobKind payload
    Write.optional o.finalBlock writeFinalBlock
    writeName name
    writeHeader contentObjectTag tagKind

end NameRelay.Ccnb
