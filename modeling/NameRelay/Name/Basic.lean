-- SUMMARY: Hierarchical names: components in wire form, chunk numbers, function marks.
import NameRelay.Bytes
import NameRelay.Suite

/-!
# Names

A name belongs to a suite and is a list of components. The components are kept as they stand on
the wire: CCNx and Cisco components carry a 16-bit type and a 16-bit length, components of the
other suites are bare values.

A component can hold a chunk number, in a form of its own in each suite. The name remembers the
last chunk number that was put into it.

A request for a computed result ends in the marker component `NFN`, or in `THUNK` and `NFN`. The
markers stand on the wire only; in a name they are flags.
-/

namespace NameRelay

/-- Why a name cannot be built. -/
inductive NameError where
  | tooManyComponents
  | chunksUnsupported (suite : Suite)
  | invalidEscape
  | componentTooLong
  deriving DecidableEq, Repr

/-- The most components a name may have. -/
def maxComponents : Nat := 64

def NameError.message : NameError → String
  | tooManyComponents => s!"a name may have at most {maxComponents} components"
  | chunksUnsupported suite => s!"{suite.name} names cannot carry chunk numbers"
  | invalidEscape => "invalid percent escape in name"
  | componentTooLong => "name component is too long"

/-- The word for the cause, without its particulars. -/
def NameError.kind : NameError → String
  | tooManyComponents => "TooManyComponents"
  | chunksUnsupported _ => "ChunksUnsupported"
  | invalidEscape => "InvalidEscape"
  | componentTooLong => "ComponentTooLong"

/-- Whether a name asks for a computed result, and whether for a promise of it only. -/
structure FunctionFlags where
  nfn : Bool
  thunk : Bool
  deriving DecidableEq, Repr, Inhabited

namespace FunctionFlags

def none : FunctionFlags := ⟨false, false⟩

/-- The flags as bits, the request for a result lowest. -/
def bits (f : FunctionFlags) : Nat := f.nfn.toNat + 2 * f.thunk.toNat

/-- The flags from their bits; other bits mean nothing. -/
def ofBits (n : Nat) : FunctionFlags := ⟨n.testBit 0, n.testBit 1⟩

end FunctionFlags

/-- A hierarchical name in the encoding of one suite. -/
structure Name where
  suite : Suite
  /-- The components as they stand on the wire, at most 64. -/
  components : List Bytes
  /-- The chunk number that was last put into the name. -/
  chunk : Option UInt32
  flags : FunctionFlags
  deriving DecidableEq, Repr, Inhabited

-- ---------------------------------------------------------------------------
-- Components
-- ---------------------------------------------------------------------------

namespace Component

/-- The type of a regular component of the suites that frame them. -/
def segmentType : Nat := 0x0001

/-- The type of a CCNx chunk component. -/
def ccnxChunkType : Nat := 0x0010

/-- The type of a Cisco chunk component. -/
def ciscoChunkType : Nat := 0x0002

/-- The first byte of a chunk component in the suites that do not frame components. -/
def chunkMark : UInt8 := 0x00

/-- A value behind its type and its length. -/
def frame (type : Nat) (value : Bytes) : Bytes :=
  bigEndian 2 type ++ bigEndian 2 value.length ++ value

/-- A value behind its type and its length, if the length fits 16 bits. -/
def frame? (type : Nat) (value : Bytes) : Except NameError Bytes :=
  if value.length < 0x10000 then .ok (frame type value) else .error .componentTooLong

/-- The wire form of a regular component. -/
def ofValue (suite : Suite) (value : Bytes) : Except NameError Bytes :=
  if suite.framesComponents then frame? segmentType value else .ok value

/-- The wire form of a marker component, which is always short. -/
def marker (suite : Suite) (word : Bytes) : Bytes :=
  if suite.framesComponents then frame segmentType word else word

/-- A component without its frame. -/
def value (suite : Suite) (wire : Bytes) : Bytes :=
  if suite.framesComponents ∧ 4 ≤ wire.length then wire.drop 4 else wire

/-- The type of a framed component. -/
def type? : Bytes → Option Nat
  | hi :: lo :: _ => some (hi.toNat * 256 + lo.toNat)
  | _ => none

/-- The digits of the chunk number in a chunk component of the suite. -/
def chunkDigits? (suite : Suite) (wire : Bytes) : Option Bytes :=
  let framed (type : Nat) : Option Bytes :=
    if type? wire = some type ∧ 4 ≤ wire.length then some (wire.drop 4) else none
  match suite with
  | .ccnb | .ndn =>
    match wire with
    | b :: digits => if b = chunkMark then some digits else none
    | [] => none
  | .ccnx => framed ccnxChunkType
  | .cisco => framed ciscoChunkType
  | .iot => none

/-- The chunk number in a component, if it is a chunk component with a number of 32 bits. -/
def chunk? (suite : Suite) (wire : Bytes) : Option UInt32 := do
  let n ← (← chunkDigits? suite wire).word?
  word32? n.toNat

/-- The chunk component of the suite for a number. CCNB writes zero as the bare mark, NDN uses one,
    two or four bytes, CCNx the shortest form and Cisco four bytes. -/
def ofChunk (suite : Suite) (chunk : UInt32) : Except NameError Bytes :=
  let n := chunk.toNat
  match suite with
  | .ccnb => .ok (chunkMark :: if n = 0 then [] else minimalBigEndian n)
  | .ndn =>
    .ok (chunkMark :: bigEndian (if n < 0x100 then 1 else if n < 0x10000 then 2 else 4) n)
  | .ccnx => frame? ccnxChunkType (minimalBigEndian n)
  | .cisco => frame? ciscoChunkType (bigEndian 4 n)
  | .iot => .error (.chunksUnsupported suite)

/-- The marker word of a request for a computed result. -/
def nfnWord : Bytes := [0x4e, 0x46, 0x4e]

/-- The marker word of a request for a promise. -/
def thunkWord : Bytes := [0x54, 0x48, 0x55, 0x4e, 0x4b]

end Component

-- ---------------------------------------------------------------------------
-- Building names
-- ---------------------------------------------------------------------------

namespace Name

/-- The name without components. -/
def root (suite : Suite) : Name := ⟨suite, [], none, .none⟩

/-- The number of components. -/
def size (name : Name) : Nat := name.components.length

def isEmpty (name : Name) : Bool := name.components.isEmpty

/-- The components without their frames. -/
def values (name : Name) : List Bytes := name.components.map (Component.value name.suite)

/-- Appends a component in wire form. -/
def pushWire (name : Name) (wire : Bytes) : Except NameError Name :=
  if name.size < maxComponents then
    .ok { name with
      components := name.components ++ [wire]
      chunk := Component.chunk? name.suite wire <|> name.chunk }
  else
    .error .tooManyComponents

/-- Appends a regular component with this value. -/
def push (name : Name) (value : Bytes) : Except NameError Name := do
  name.pushWire (← Component.ofValue name.suite value)

/-- The name of these values. -/
def ofValues (suite : Suite) (values : List Bytes) : Except NameError Name :=
  values.foldlM push (root suite)

/-- The name with the chunk component for `chunk` behind it. -/
def withChunk (name : Name) (chunk : UInt32) : Except NameError Name := do
  let extended ← name.pushWire (← Component.ofChunk name.suite chunk)
  return { extended with chunk := some chunk }

def withFlags (name : Name) (flags : FunctionFlags) : Name := { name with flags }

-- ---------------------------------------------------------------------------
-- Function marks on the wire
-- ---------------------------------------------------------------------------

/-- Whether the last component has this value. -/
def endsIn (name : Name) (word : Bytes) : Bool :=
  match name.components.getLast? with
  | some wire => Component.value name.suite wire == word
  | none => false

/-- Turns marker components at the end of a name that was read into flags. -/
def stripMarkers (name : Name) : Name :=
  if name.endsIn Component.nfnWord then
    let asked := { name with
      components := name.components.dropLast
      flags := { name.flags with nfn := true } }
    if asked.endsIn Component.thunkWord then
      { asked with
        components := asked.components.dropLast
        flags := { asked.flags with thunk := true } }
    else
      asked
  else
    name

/-- The marker components that the flags stand for. -/
def markers (name : Name) : List Bytes :=
  if name.flags.nfn then
    (if name.flags.thunk then [Component.marker name.suite Component.thunkWord] else []) ++
      [Component.marker name.suite Component.nfnWord]
  else
    []

/-- The components as they are written, markers included. -/
def wireComponents (name : Name) : List Bytes := name.components ++ name.markers

end Name

end NameRelay
