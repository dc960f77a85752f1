import BytePatch.Differ
import BytePatch.Json.Config
import BytePatch.Proofs.Lattice.Dominance
import BytePatch.Proofs.Wire.RoundTrip
import BytePatch.Proofs.Pipeline.Saturation
import BytePatch.Proofs.Threads.Parallel
import BytePatch.Proofs.Differ.RoundTrip
import BytePatch.Proofs.Script.Compaction
import BytePatch.Proofs.Stage.Window
import BytePatch.Proofs.Script.Grouping
import BytePatch.Proofs.Script.Regrouping
import BytePatch.Proofs.Stage.Regrouping
import BytePatch.Proofs.Wire.Items
import BytePatch.Proofs.Wire.Decoding
import BytePatch.Proofs.Stream.Decoded
import BytePatch.Proofs.Stream.Chunks
import BytePatch.Proofs.Differ.Streams
import BytePatch.Proofs.Stage.Rewind
import BytePatch.Proofs.Lattice.Flat
import BytePatch.Proofs.Pipeline.Building
import BytePatch.Proofs.Pipeline.Sessions
import BytePatch.Proofs.Script.Tames
import BytePatch.Proofs.Queue.Polls
import BytePatch.Proofs.Stage.Turns
import BytePatch.Proofs.Stage.Holding
import BytePatch.Proofs.Queue.Alike
import BytePatch.Proofs.Queue.Records
import BytePatch.Proofs.Pipeline.Completion
import BytePatch.Proofs.Pipeline.Circulation
import BytePatch.Lattice.Comparer
import BytePatch.Proofs.Lattice.Slates
import BytePatch.Proofs.Lattice.Writing
import BytePatch.Proofs.Lattice.Walks
import BytePatch.Proofs.Lattice.Reuse
import BytePatch.Proofs.Script.Fields
import BytePatch.Proofs.Wire.Digits
import BytePatch.Proofs.Lattice.Ceiling
import BytePatch.Proofs.Threads.Service
import BytePatch.Proofs.Threads.Account
import BytePatch.Proofs.Threads.Orderly
import BytePatch.Proofs.Queue.Counts
import BytePatch.Proofs.Queue.Rest
import BytePatch.Proofs.Pipeline.Ending
import BytePatch.Proofs.Lattice.Ties
import BytePatch.Proofs.Lattice.Subsequence
import BytePatch.Proofs.Queue.Answers
import BytePatch.Proofs.Stage.Pulling
import BytePatch.Proofs.Stage.Refusals
import BytePatch.Proofs.Threads.Isolation
import BytePatch.Proofs.Threads.Stranding
import BytePatch.Proofs.Queue.Recovery
import BytePatch.Proofs.Stage.Recovery
import BytePatch.Proofs.Threads.Recovery
import BytePatch.Proofs.Script.Totals
import BytePatch.Proofs.Stage.Spilling
import BytePatch.Proofs.Stage.Reissue
import BytePatch.Proofs.Stage.Diversion
import BytePatch.Proofs.Script.Stretches
import BytePatch.Proofs.Script.Summary
import BytePatch.Proofs.Script.Slices
import BytePatch.Proofs.Stage.Summary
import BytePatch.Proofs.Threads.Room
import BytePatch.Proofs.Differ.Capacity
import BytePatch.Proofs.Wire.Sizes
import BytePatch.Proofs.Stage.Opposites
import BytePatch.Proofs.Differ.Identity
import BytePatch.Proofs.Threads.Calling
import BytePatch.Proofs.Threads.Cancellation
import BytePatch.Proofs.Queue.Endings
import BytePatch.Proofs.Pipeline.Cancellation
import BytePatch.Proofs.Stream.Failing
import BytePatch.Proofs.Lattice.Backward
