import NameRelay.Config.Document
import NameRelay.Digest.Sha256
import NameRelay.Endpoint.Basic
import NameRelay.Packet.Hashed
import NameRelay.Relay.Configured
import NameRelay.Relay.Lifecycle
import NameRelay.Relay.Publish
import NameRelay.Relay.Receive
import NameRelay.Proofs.Table.Slots
import NameRelay.Proofs.Table.Contents
import NameRelay.Proofs.Table.Generations
import NameRelay.Proofs.Wire.Numbers
import NameRelay.Proofs.Wire.Writing
import NameRelay.Proofs.Wire.Calls
import NameRelay.Proofs.Wire.Elements
import NameRelay.Proofs.Wire.Headers
import NameRelay.Proofs.Wire.Framing
import NameRelay.Proofs.Name.Restoring
import NameRelay.Proofs.Name.Matching
import NameRelay.Proofs.Format.Ndn
import NameRelay.Proofs.Format.Iot
import NameRelay.Proofs.Format.Ccnx
import NameRelay.Proofs.Format.Cisco
import NameRelay.Proofs.Format.Ccnb.Token
import NameRelay.Proofs.Format.Ccnb.Packet
import NameRelay.Proofs.Format.RoundTrip
import NameRelay.Proofs.Format.Ccnb.Limits
import NameRelay.Proofs.Format.Surviving
import NameRelay.Proofs.Name.Chunks
import NameRelay.Proofs.Packet.Framed
import NameRelay.Proofs.Format.Ccnb.Framing
import NameRelay.Proofs.Format.Framing
import NameRelay.Proofs.Table.Pinned
import NameRelay.Proofs.Table.Unique
import NameRelay.Proofs.Relay.Unnoticed
import NameRelay.Proofs.Relay.Transmission
import NameRelay.Proofs.Relay.Tables
import NameRelay.Proofs.Relay.Standing
import NameRelay.Proofs.Relay.Run
import NameRelay.Proofs.Relay.Consistency
import NameRelay.Proofs.Relay.Moves
import NameRelay.Proofs.Relay.Arrangement
import NameRelay.Proofs.Relay.Sound
import NameRelay.Proofs.Relay.Recast
import NameRelay.Proofs.Relay.Round
import NameRelay.Proofs.Relay.News
import NameRelay.Proofs.Relay.Handover
import NameRelay.Proofs.Relay.Confinement
import NameRelay.Proofs.Relay.Delivery
import NameRelay.Proofs.Relay.Once
import NameRelay.Proofs.Relay.Waiting
import NameRelay.Proofs.Relay.Datagram
import NameRelay.Proofs.Relay.Sequence
import NameRelay.Proofs.Face.Ring
import NameRelay.Proofs.Relay.Recognition
import NameRelay.Proofs.Relay.Aggregation
import NameRelay.Proofs.Relay.Links
import NameRelay.Proofs.Relay.Queues
import NameRelay.Proofs.Relay.Balance
import NameRelay.Proofs.Relay.Restart
import NameRelay.Proofs.Relay.Routed
import NameRelay.Proofs.Relay.Copies
import NameRelay.Proofs.Relay.Storing
import NameRelay.Proofs.Relay.Pinning
import NameRelay.Proofs.Relay.Publishing
import NameRelay.Proofs.Relay.Steps
import NameRelay.Proofs.Relay.Flow
import NameRelay.Proofs.Relay.Trains
import NameRelay.Proofs.Relay.Places
import NameRelay.Proofs.Relay.Acceptance
import NameRelay.Proofs.Relay.Outboxes
import NameRelay.Proofs.Fragment.RoundTrip
import NameRelay.Proofs.Fragment.Reassembly
import NameRelay.Proofs.Relay.Indifference
import NameRelay.Proofs.Relay.Transparency
import NameRelay.Proofs.Relay.Uniqueness
import NameRelay.Proofs.Relay.References
import NameRelay.Proofs.Relay.Repeats
import NameRelay.Proofs.Table.Listing
import NameRelay.Proofs.Table.Capacity
import NameRelay.Proofs.Table.Recency
import NameRelay.Proofs.Relay.Turns
import NameRelay.Proofs.Relay.Deals
import NameRelay.Proofs.Table.Bindings
import NameRelay.Proofs.Relay.Expiry
import NameRelay.Proofs.Relay.Attempts
import NameRelay.Proofs.Relay.Retransmission
import NameRelay.Proofs.Relay.Fetching
import NameRelay.Proofs.Relay.Timers
import NameRelay.Proofs.Relay.Pacing
import NameRelay.Proofs.Packet.Restriction
import NameRelay.Proofs.Format.Rereading
import NameRelay.Proofs.Packet.Digests
import NameRelay.Proofs.Packet.Selectors
import NameRelay.Proofs.Packet.Chunked
import NameRelay.Proofs.Fragment.History
import NameRelay.Proofs.Fragment.Splitting
import NameRelay.Proofs.Format.Room
import NameRelay.Proofs.Wire.Replacing
import NameRelay.Proofs.Format.HopLimit
import NameRelay.Proofs.Packet.Lowering
import NameRelay.Proofs.Name.Uri
import NameRelay.Proofs.Table.Routes
import NameRelay.Proofs.Format.Ccnb.Scope
import NameRelay.Proofs.Endpoint.TimerQueue
import NameRelay.Proofs.Format.Unknown
import NameRelay.Proofs.Face.Fifo
import NameRelay.Proofs.Fragment.Bound
import NameRelay.Proofs.Format.Heads
