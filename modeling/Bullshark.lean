import Bullshark.Machinery.Bytes
import Bullshark.Machinery.Collections
import Bullshark.Machinery.Fallible
import Bullshark.Machinery.Handler
import Bullshark.Machinery.Mealy
import Bullshark.Machinery.Search
import Bullshark.Machinery.Weights
import Bullshark.Crypto.Primitives
import Bullshark.Config.Committee
import Bullshark.Config.Stake
import Bullshark.Config.Thresholds
import Bullshark.Store.Commands
import Bullshark.Primary.Messages
import Bullshark.Primary.Verify
import Bullshark.Primary.Sample
import Bullshark.Primary.HeaderDigest
import Bullshark.Primary.Acceptance
import Bullshark.Primary.Aggregators
import Bullshark.Primary.Synchronizer
import Bullshark.Primary.Core
import Bullshark.Primary.Handlers
import Bullshark.Primary.Effects
import Bullshark.Primary.Turns
import Bullshark.Primary.Traffic
import Bullshark.Primary.VoteOnce
import Bullshark.Primary.Stored
import Bullshark.Primary.OwnVote
import Bullshark.Primary.Delivered
import Bullshark.Primary.Validated
import Bullshark.Primary.Genuine
import Bullshark.Primary.Voters
import Bullshark.Primary.HandedOut
import Bullshark.Primary.Adversary
import Bullshark.Primary.Proposer
import Bullshark.Primary.Chain
import Bullshark.Primary.CertificateWaiter
import Bullshark.Consensus.State
import Bullshark.Consensus.Order
import Bullshark.Consensus.Run
import Bullshark.Consensus.CleanUp
import Bullshark.Consensus.Update
import Bullshark.Consensus.Universe
import Bullshark.Consensus.Flatten
import Bullshark.Consensus.Linked
import Bullshark.Consensus.Exact
import Bullshark.Consensus.Invariant
import Bullshark.Consensus.Verdict
import Bullshark.Consensus.Steps
import Bullshark.Consensus.OnTime
import Bullshark.Consensus.Causal
import Bullshark.Consensus.ArrivalOrder
import Bullshark.Consensus.Quiet
import Bullshark.Consensus.Redelivery
import Bullshark.Consensus.Agreement
import Bullshark.Consensus.Fallback
import Bullshark.Consensus.WaveOrder
import Bullshark.Consensus.Support
import Bullshark.Consensus.Commits
import Bullshark.Consensus.Vetted
import Bullshark.Consensus.Once
import Bullshark.Consensus.Walk
import Bullshark.Consensus.NeverPanics
import Bullshark.Node.Certified
import Bullshark.Node.Composition
import Bullshark.Benchmark.AdversarySchedule
import Bullshark.Primary.Rejected
import Bullshark.Consensus.Underflow
import Bullshark.Node.RoundZero
import Bullshark.Machinery.Codec
import Bullshark.Primary.Wire
import Bullshark.Primary.Frames
import Bullshark.Primary.Helper
import Bullshark.Primary.CancelHandlers
import Bullshark.Network.ReliableSender
import Bullshark.Network.Link
import Bullshark.Primary.Equivocation
import Bullshark.Primary.SilentSet
import Bullshark.Primary.Payload
import Bullshark.Worker.Messages
import Bullshark.Worker.Tasks
import Bullshark.Worker.Run
import Bullshark.Worker.Synchronizer
import Bullshark.Worker.Synced
import Bullshark.Worker.SyncRequests
import Bullshark.Worker.ContentAddressed
import Bullshark.Worker.QuorumWaiter
import Bullshark.Worker.BatchMaker
import Bullshark.Primary.HeaderWaiter
import Bullshark.Primary.BatchRequests
import Bullshark.Primary.ParentRequests
import Bullshark.Config.RoundRobin
import Bullshark.Consensus.Paths
import Bullshark.Store.FailedWrites
import Bullshark.Benchmark.AdversaryPlacement
import Bullshark.Crypto.KeyText
import Bullshark.Machinery.Json
import Bullshark.Config.Export
import Bullshark.Consensus.Progress
import Bullshark.Consensus.Bare
import Bullshark.Machinery.LastWriter
import Bullshark.Worker.PauseRegister
import Bullshark.Machinery.Interleaving
import Bullshark.Primary.Inventory
import Bullshark.Node.Network
import Bullshark.Node.Dag
import Bullshark.Node.Validator
import Bullshark.Node.Wiring
import Bullshark.Node.Availability
import Bullshark.Node.Deployment
import Bullshark.Worker.Reported
import Bullshark.Worker.Advance
import Bullshark.Worker.Dissemination
import Bullshark.Node.Provenance
import Bullshark.Node.Integrity
import Bullshark.Node.Backed
