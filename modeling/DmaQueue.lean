import DmaQueue.Act
import DmaQueue.Bytes.LittleEndian
import DmaQueue.Config
import DmaQueue.Descriptor
import DmaQueue.Device.Basic
import DmaQueue.Device.CallerMemory
import DmaQueue.Device.Command
import DmaQueue.Device.Gate
import DmaQueue.Engine.Basic
import DmaQueue.Engine.Issue
import DmaQueue.Engine.Reclaim
import DmaQueue.Engine.Run
import DmaQueue.Engine.Submit
import DmaQueue.Failure
import DmaQueue.Fault
import DmaQueue.Page.Ascending
import DmaQueue.Page.Extent
import DmaQueue.Page.Granule
import DmaQueue.Page.Region
import DmaQueue.Pinner.Basic
import DmaQueue.Pinner.GrantList
import DmaQueue.Pinner.RegionTable
import DmaQueue.Proofs.Account.Calls
import DmaQueue.Proofs.Account.Counters
import DmaQueue.Proofs.Account.Settlement
import DmaQueue.Proofs.Account.Timing
import DmaQueue.Proofs.Account.Totals
import DmaQueue.Proofs.Act.Counting
import DmaQueue.Proofs.Act.Failing
import DmaQueue.Proofs.Act.Respects
import DmaQueue.Proofs.Act.Simulates
import DmaQueue.Proofs.Descriptor.Fields
import DmaQueue.Proofs.Descriptor.Lossless
import DmaQueue.Proofs.Descriptor.Units
import DmaQueue.Proofs.Device.Accesses
import DmaQueue.Proofs.Device.CallerMemory
import DmaQueue.Proofs.Device.Control
import DmaQueue.Proofs.Device.Sessions
import DmaQueue.Proofs.Device.StrictMemory
import DmaQueue.Proofs.Engine.Answers
import DmaQueue.Proofs.Engine.Books
import DmaQueue.Proofs.Engine.Custody
import DmaQueue.Proofs.Engine.Faults
import DmaQueue.Proofs.Engine.History
import DmaQueue.Proofs.Engine.Keeps
import DmaQueue.Proofs.Engine.Ledger
import DmaQueue.Proofs.Engine.Loop
import DmaQueue.Proofs.Engine.Queues
import DmaQueue.Proofs.Engine.Refusal
import DmaQueue.Proofs.Engine.ReleaseOrder
import DmaQueue.Proofs.Engine.Submission
import DmaQueue.Proofs.Engine.Termination
import DmaQueue.Proofs.Engine.Turn
import DmaQueue.Proofs.Engine.Uncounted
import DmaQueue.Proofs.Issue.Backpressure
import DmaQueue.Proofs.Issue.Bytes
import DmaQueue.Proofs.Issue.Completion
import DmaQueue.Proofs.Issue.Drained
import DmaQueue.Proofs.Issue.Fifos
import DmaQueue.Proofs.Issue.IssuerRuns
import DmaQueue.Proofs.Issue.Packing
import DmaQueue.Proofs.Issue.Reclamation
import DmaQueue.Proofs.Issue.Standstill
import DmaQueue.Proofs.Issue.Streams
import DmaQueue.Proofs.Page.Ascending
import DmaQueue.Proofs.Page.Count
import DmaQueue.Proofs.Page.Edges
import DmaQueue.Proofs.Page.Extent
import DmaQueue.Proofs.Page.Granule
import DmaQueue.Proofs.Page.Overlap
import DmaQueue.Proofs.Page.Region
import DmaQueue.Proofs.Page.Rounding
import DmaQueue.Proofs.Page.Shares
import DmaQueue.Proofs.Pinner.CountedTable
import DmaQueue.Proofs.Pinner.History
import DmaQueue.Proofs.Pinner.Leading
import DmaQueue.Proofs.Pinner.Mapping
import DmaQueue.Proofs.Pinner.References
import DmaQueue.Proofs.Pinner.RegionTable
import DmaQueue.Proofs.Pinner.Regions
import DmaQueue.Proofs.Pinner.Straying
import DmaQueue.Proofs.Pinner.Walk
import DmaQueue.Proofs.Register.DescriptorFifos
import DmaQueue.Proofs.Register.FifoPair
import DmaQueue.Proofs.Register.Quiet
import DmaQueue.Proofs.Request.Admission
import DmaQueue.Proofs.Request.Conditions
import DmaQueue.Proofs.Request.Pipeline
import DmaQueue.Proofs.Request.Record
import DmaQueue.Proofs.Tally
import DmaQueue.Proofs.Trace.Deeds
import DmaQueue.Proofs.Trace.Readings
import DmaQueue.Proofs.Transfer.Chunks
import DmaQueue.Proofs.Transfer.Faithful
import DmaQueue.Proofs.Transfer.Issuer
import DmaQueue.Proofs.Transfer.Order
import DmaQueue.Proofs.Transfer.Packing
import DmaQueue.Proofs.Transfer.Path
import DmaQueue.Proofs.Transfer.Placed
import DmaQueue.Proofs.Transfer.Tiling
import DmaQueue.Register.Basic
import DmaQueue.Register.FifoPair
import DmaQueue.Register.Window
import DmaQueue.Request.Admission
import DmaQueue.Request.Basic
import DmaQueue.Request.OutputLength
import DmaQueue.Tally
import DmaQueue.Text.Hex
import DmaQueue.Trace.Event
import DmaQueue.Trace.Note
import DmaQueue.Transfer.Basic
import DmaQueue.Transfer.Issuer
import DmaQueue.Transfer.PinnedRange
import DmaQueue.Transfer.Progress
import DmaQueue.Word
