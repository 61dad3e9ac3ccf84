-- SUMMARY: Contents and interests of the relay's own node.
import NameRelay.Relay.Faces
import NameRelay.Relay.Forward

/-!
# Publishing and requesting

The local node pins contents in the store, whole or in chunks, and asks for contents. What it
encodes is read back before it is used, so only packets that the relay itself understands get into
its tables.
-/

namespace NameRelay

/-- Reads a packet of the suite that was just written, its switch included. -/
def Suite.readBack (suite : Suite) (wire : Bytes) : Except RelayError Packet := do
  let switched ← (Switch.read? wire).mapError .decode
  let (packet, _) ← (suite.decode (wire.drop (switched.elim 0 (·.2)))).mapError .decode
  if packet.suite = suite then return packet else throw (.decode .unknownSuite)

/-- Contents to be published under one name. -/
structure Publication where
  name : Name
  /-- The number of the first chunk. -/
  firstChunk : Option UInt32
  bytes : Bytes
  /-- How many bytes a chunk holds; zero keeps all of them in one. -/
  chunkSize : Nat
  count : Nat

namespace Publication

/-- The number of the last chunk, if chunk numbers go as far. -/
def lastChunk? (p : Publication) : Option UInt32 :=
  word32? ((p.firstChunk.getD 0).toNat + (p.count - 1))

/-- The payloads of the chunks that have any. -/
def payloads (p : Publication) : List Bytes :=
  if p.chunkSize = 0 then [p.bytes] else p.bytes.pieces (p.chunkSize - 1)

/-- The name of a chunk. A single chunk that was given no number has the bare name. -/
def chunkName (p : Publication) (i : Nat) : Except NameError Name :=
  if p.firstChunk.isNone ∧ p.count = 1 then .ok p.name
  else p.name.withChunk ((p.firstChunk.getD 0) + UInt32.ofNat i)

/-- The packet of a chunk. If there are several, each names the last one. -/
def chunk (p : Publication) (payloads : Array Bytes) (last : UInt32) (i : Nat) :
    Except RelayError Packet := do
  let name ← (p.chunkName i).mapError .name
  let suite := p.name.suite
  let options : ContentOptions := { finalBlock := if 1 < p.count then some last else none }
  let wire ← (suite.encodeContent name (payloads[i]?.getD []) options).mapError .encode
  suite.readBack wire

/-- The packets of all chunks. -/
def packets (p : Publication) : Except RelayError (List Packet) :=
  match p.lastChunk? with
  | none => .error (.encode .valueTooLong)
  | some last => (List.range p.count).mapM (p.chunk p.payloads.toArray last)

end Publication

namespace Relay

/-- Pins packets one after the other and serves each to those who wait for it; the number is how
    many were not stored before. -/
def publishPackets (r : Relay) : List Packet → Except RelayError Nat × Relay
  | [] => (.ok 0, r)
  | packet :: rest =>
    match r.store packet { pinned := true } with
    | (.error e, r) => (.error e, r)
    | (.ok stored, r) =>
      let (outcome, r) := publishPackets (r.servePending packet).2 rest
      (outcome.map (stored.toNat + ·), r)

/-- Pins contents in the store and serves them to those who wait for them; the number is how many
    chunks were not stored before. -/
def addContent (r : Relay) (p : Publication) : Except RelayError Nat × Relay :=
  match p.packets with
  | .error e => (.error e, r)
  | .ok packets =>
    match r.publishPackets packets with
    | (.error e, r) => (.error e, r)
    | (.ok stored, r) =>
      (.ok stored, r.log .info ("Stored " ++ toString stored ++ " chunks of " ++ p.name.toUri))

/-- Drops every stored content with exactly this name; the number is how many. -/
def removeContent (r : Relay) (name : Name) : Nat × Relay :=
  let (removed, contents) := r.contents.removeNamed name
  (removed, { r with contents })

/-- Sets the limit of the content store. What is stored stays. -/
def setCacheLimit (r : Relay) (limit : Int) : Relay :=
  { r with contents := { r.contents with limit } }

/-- A nonce for an interest of the relay's own. -/
def nextNonce (r : Relay) : Bytes × Relay :=
  let key := (UInt32.ofNat r.pending.size + 1) * 7 ^^^ UInt32.ofNat r.now.micros
  let seed := r.nonceSeed * 33 ^^^ key
  (bigEndian 4 seed.toNat, { r with nonceSeed := seed })

/-- Sends an interest for the local application, to which the answer is delivered. -/
def request (r : Relay) (name : Name) (chunk : Option UInt32) : Except RelayError Unit × Relay :=
  match (chunk.elim (.ok name) name.withChunk) with
  | .error e => (.error (.name e), r)
  | .ok wanted =>
    let (nonce, r) := r.nextNonce
    let suite := name.suite
    match (suite.encodeInterest wanted { nonce := some nonce }).mapError .encode >>=
        suite.readBack with
    | .error e => (.error e, r)
    | .ok interest =>
      let (key, r) := r.applicationFace
      r.handleInterest key interest

end Relay

end NameRelay
