-- SUMMARY: What a relay does with interests and contents.
import NameRelay.Codec
import NameRelay.Relay.Transmit

/-!
# Forwarding

An interest is answered from the content store, or waits in the pending table and follows the routes
that cover its name. A content goes to every face that waits for it, and is kept if the store keeps
anything; a content that nobody waits for is dropped.
-/

namespace NameRelay

namespace Relay

-- ---------------------------------------------------------------------------
-- Serving
-- ---------------------------------------------------------------------------

/-- Sends a content to a face, or hands it to the application if the face stands for it. -/
def serve (r : Relay) (key : FaceKey) (content : Packet) : Except RelayError Unit × Relay :=
  match r.face? key with
  | none => (.error .noSuchFace, r)
  | some face =>
    let r := r.note (.served content key)
    if face.isLocal then
      match content.name? with
      | some name => (.ok (), r.emit (.deliver name name.chunk (content.content?.getD [])))
      | none => (.ok (), r)
    else
      let (outcome, r) := r.enqueue key content.suite content.bytes
      (outcome.map fun _ => (), r)

/-- Whether `content` answers `interest`, with its digest if the interest may end in it. -/
def answers (r : Relay) (interest content : Packet) : Bool :=
  interest.suite == content.suite &&
    match interest.name?, content.name? with
    | some wanted, some name =>
      content.suite.admits interest content (r.digestFor wanted name content)
    | _, _ => false

/-- Serves a content to a face that was not served in this round. -/
def serveOnce (r : Relay) (content : Packet) (key : FaceKey) : Relay :=
  match r.face? key with
  | none => r
  | some face =>
    if face.flags.served then r
    else
      let r := r.modifyFace key fun f => { f with flags := { f.flags with served := true } }
      match r.serve key content with
      | (.ok _, r) => r
      | (.error e, r) =>
        r.log .debug ("Could not serve " ++ FaceKey.text key ++ ": " ++ e.message)

/-- Drops a pending interest and serves a content to the faces that wait with it. -/
def satisfy (r : Relay) (content : Packet) (key : InterestKey) : Relay :=
  match r.pending.get? key with
  | none => r
  | some entry =>
    entry.faces.foldl (serveOnce · content) { r with pending := r.pending.remove key }

/-- The pending interests that a content answers, in the order of their slots. -/
def satisfied (r : Relay) (content : Packet) : List InterestKey :=
  (r.pending.entries.filter fun e => r.answers e.2.packet content).map (·.1)

/-- Ends a round of deliveries: no face counts as served any more. -/
def endRound (r : Relay) : Relay :=
  { r with faces := r.faces.mapEntries fun f => { f with flags := { f.flags with served := false } } }

/-- Serves a content to every face that waits for it, each once, and drops the interests it
    answers; the number is how many. -/
def servePending (r : Relay) (content : Packet) : Nat × Relay :=
  let keys := r.satisfied content
  (keys.length, (keys.foldl (satisfy · content) r).endRound)

-- ---------------------------------------------------------------------------
-- Propagating
-- ---------------------------------------------------------------------------

/-- Hands an interest to one destination; the number is one if it took it. An interest for the local
    application is shown to it. No interest goes back to `origin`, unless that face reflects. -/
def handOver (r : Relay) (interest : Packet) (name : Name) (origin : FaceKey) (reflects : Bool) :
    Destination → Nat × Relay
  | .tap => (1, (r.note (.handed interest .tap)).emit (.tap name interest.bytes))
  | .face key =>
    if key = origin ∧ !reflects then (0, r)
    else
      let r := r.note (.handed interest (.face key))
      if (r.face? key).any (·.isLocal) then (1, r.emit (.tap name interest.bytes))
      else
        match r.enqueue key interest.suite interest.bytes with
        | (.ok queued, r) => (queued.toNat, r)
        | (.error e, r) =>
          (0, r.log .debug ("Not forwarding to " ++ FaceKey.text key ++ ": " ++ e.message))

/-- Hands an interest to one destination after the other and counts those that took it. -/
def handOverAll (r : Relay) (interest : Packet) (name : Name) (origin : FaceKey)
    (reflects : Bool) : List Destination → Nat × Relay
  | [] => (0, r)
  | d :: rest =>
    let (one, r) := r.handOver interest name origin reflects d
    let (more, r) := handOverAll r interest name origin reflects rest
    (one + more, r)

/-- Hands a pending interest to every route that covers its name and counts those that took it. -/
def propagate (r : Relay) (key : InterestKey) : Nat × Relay :=
  match r.pending.get? key with
  | none => (0, r)
  | some entry =>
    let now := r.now
    let r := { r with pending := r.pending.modify key fun e => { e with lastAttempt := now } }
    match entry.packet.name? with
    | none => (0, r.note (.tried key now 0))
    | some name =>
      let reflects := (r.face? entry.origin).any (·.flags.reflects)
      let destinations := (r.routes.covering name).map (·.destination)
      let (sent, r) := r.handOverAll entry.packet name entry.origin reflects destinations
      let r := r.note (.tried key now sent)
      (sent, r.log .trace s!"{name.toUri} went to {sent} destinations")

-- ---------------------------------------------------------------------------
-- Interests
-- ---------------------------------------------------------------------------

/-- Whether the entry answers an interest: one that asks for fresh content is not answered with a
    stale one. -/
def answersFromStore (r : Relay) (interest : Packet) (e : StoredContent) : Bool :=
  !(interest.details.mustBeFresh && e.flags.stale) && r.answers interest e.packet

/-- The first stored content that answers an interest. -/
def stored? (r : Relay) (interest : Packet) : Option ContentKey :=
  r.contents.slots.find? (r.answersFromStore interest)

/-- Records the nonce of an interest, if it has one; the flag says that it was there already. -/
def recordNonce (r : Relay) (interest : Packet) : Bool × Relay :=
  match interest.nonce with
  | none => (false, r)
  | some nonce =>
    let (seen, nonces) := r.nonces.record interest.suite nonce
    (seen, { r with nonces })

/-- Answers an interest with a stored content. -/
def answerFromStore (r : Relay) (origin : FaceKey) (interest : Packet) (key : ContentKey) :
    Except RelayError Unit × Relay :=
  let r := { r with contents := r.contents.touch key r.now }
  match r.contents.get? key with
  | none => (.ok (), r)
  | some e =>
    (r.log .trace ("Answering " ++ interest.label ++ " from the content store")).serve origin
      e.packet

/-- Lets a face wait with an interest that is pending already. -/
def joinPending (r : Relay) (origin : FaceKey) (key : InterestKey) : Relay :=
  let r := { r with pending := r.pending.modify key fun e => e.addWaiter origin r.now }
  if (r.face? origin).any (·.flags.forwardsAll) then (r.propagate key).2 else r

/-- Lets a face wait with an interest that nobody waits with yet. -/
def startPending (r : Relay) (origin : FaceKey) (interest : Packet) : Relay :=
  let (key, pending) := r.pending.insert (.fresh interest origin r.now)
  let r := { r with pending }.note (.began key)
  if interest.suite.mayForward interest then (r.propagate key).2
  else r.log .debug "Interest stays local, not propagating"

/-- Takes in an interest. One whose nonce was seen before is dropped. -/
def handleInterest (r : Relay) (origin : FaceKey) (interest : Packet) :
    Except RelayError Unit × Relay :=
  match r.recordNonce interest with
  | (true, r) => (.ok (), r.log .debug ("Dropping " ++ interest.label ++ ", nonce already seen"))
  | (false, r) =>
    match r.stored? interest with
    | some key => r.answerFromStore origin interest key
    | none =>
      match r.pending.find? fun pending => interest.suite.sameInterest pending interest with
      | some key => (.ok (), r.joinPending origin key)
      | none => (.ok (), r.startPending origin interest)

-- ---------------------------------------------------------------------------
-- Contents
-- ---------------------------------------------------------------------------

/-- Stores a content. The flag says that it is there now and was not before. -/
def store (r : Relay) (content : Packet) (flags : ContentFlags) :
    Except RelayError Bool × Relay :=
  let (outcome, contents) := r.contents.insert content flags r.now
  let r := { r with contents }.logAll (outcome.records content)
  match outcome with
  | .stored _ _ => (.ok true, r)
  | .unchanged => (.ok false, r)
  | .full => (.error .cacheFull, r)

/-- Takes in a content. One that is stored already, or that nobody waits for, is dropped. -/
def handleContent (r : Relay) (origin : FaceKey) (content : Packet) :
    Except RelayError Unit × Relay :=
  if (r.contents.duplicate? content).isSome then
    (.ok (), r.log .debug ("Already cached: " ++ content.label))
  else
    match r.servePending content with
    | (0, r) =>
      (.ok (), r.log .debug ("Unsolicited " ++ content.label ++ " from " ++ FaceKey.text origin))
    | (_, r) =>
      if r.contents.isEnabled then
        let (outcome, r) := r.store content {}
        (outcome.map fun _ => (), r)
      else
        (.ok (), r)

end Relay

end NameRelay
