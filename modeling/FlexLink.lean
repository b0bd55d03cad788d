import FlexLink.Bridge.Serving
import FlexLink.Console.Host
import FlexLink.Inspect.Services
import FlexLink.Inspect.Settings
import FlexLink.Inspect.Stream
import FlexLink.Journal.Memory
import FlexLink.Main
import FlexLink.Stream.Pair
import FlexLink.Transport.Loopback
import FlexLink.Session.Isolated
import FlexLink.Proofs.Envelope.RoundTrip
import FlexLink.Proofs.Wire.Loss
import FlexLink.Proofs.Stream.Delivery
import FlexLink.Proofs.Stream.Pushing
import FlexLink.Proofs.Stream.Accounting
import FlexLink.Proofs.Stream.Asking
import FlexLink.Proofs.Reliability.Resending
import FlexLink.Proofs.Envelope.Controls
import FlexLink.Proofs.Stream.Dialogue
import FlexLink.Proofs.Reliability.Expiring
import FlexLink.Proofs.Journal.WriteOnce
import FlexLink.Proofs.Bridge.Replies
import FlexLink.Proofs.Wire.Datagrams
import FlexLink.Proofs.Wire.Pipeline
import FlexLink.Proofs.Bridge.Retransmitting
import FlexLink.Proofs.Client.Agreement
import FlexLink.Proofs.Session.Agreeing
import FlexLink.Proofs.Stream.Outbox
import FlexLink.Proofs.Journal.Tails
import FlexLink.Proofs.Session.Echoing
import FlexLink.Proofs.Client.Replaying
import FlexLink.Proofs.Stream.Failing
import FlexLink.Proofs.Stream.Stitching
import FlexLink.Proofs.Envelope.Decoding
import FlexLink.Proofs.Client.Readmitting
import FlexLink.Proofs.Stream.Cutting
import FlexLink.Proofs.Stream.Pending
import FlexLink.Proofs.Stream.Interleaving
import FlexLink.Proofs.Envelope.Grammar
import FlexLink.Proofs.Wire.Resuming
import FlexLink.Proofs.Envelope.Carrying
import FlexLink.Proofs.Client.Requesting
import FlexLink.Proofs.Session.Opening
import FlexLink.Proofs.Wire.Classifying
import FlexLink.Proofs.Client.Building
import FlexLink.Proofs.Journal.Confining
import FlexLink.Proofs.Journal.Lengths
import FlexLink.Proofs.Reliability.Queueing
import FlexLink.Proofs.Wire.Packing
import FlexLink.Proofs.Discovery.Naming
import FlexLink.Proofs.Discovery.Tracking
import FlexLink.Proofs.Reliability.Shelving
import FlexLink.Proofs.Wire.Bits
