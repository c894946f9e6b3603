import AdaptiveRadix.Benchmark.Workload
import AdaptiveRadix.Tree.Dump
import AdaptiveRadix.TupleSet.Basic
import AdaptiveRadix.Proofs.Node.Direct
import AdaptiveRadix.Proofs.Node.Entries
import AdaptiveRadix.Proofs.Node.Indexed
import AdaptiveRadix.Proofs.Node.SortedRun
import AdaptiveRadix.Proofs.Listing
import AdaptiveRadix.Proofs.Node.FiniteMap
import AdaptiveRadix.Proofs.Pool.Anchors
import AdaptiveRadix.Proofs.Key
import AdaptiveRadix.Proofs.Tree.Contents
import AdaptiveRadix.Proofs.Tree.Traversal
import AdaptiveRadix.Proofs.Tree.Edges
import AdaptiveRadix.Proofs.Tree.Frame
import AdaptiveRadix.Proofs.Pool.Room
import AdaptiveRadix.Proofs.Tree.Invariant
import AdaptiveRadix.Proofs.Tree.Run
import AdaptiveRadix.Proofs.Tree.Refinement
import AdaptiveRadix.Proofs.Tree.WellFormed
import AdaptiveRadix.Proofs.Pool.Moves
import AdaptiveRadix.Proofs.Tree.Refusal
import AdaptiveRadix.Proofs.Tree.Moves
import AdaptiveRadix.Proofs.Tree.Accounts
import AdaptiveRadix.Proofs.Tree.Budget
import AdaptiveRadix.Proofs.Tree.Shape
import AdaptiveRadix.Proofs.Tree.SameShape
import AdaptiveRadix.Proofs.Tree.Canonical
import AdaptiveRadix.Proofs.Tree.Cells
import AdaptiveRadix.Node.Request
import AdaptiveRadix.TupleSet.Request
import AdaptiveRadix.Proofs.TupleSet.Contents
import AdaptiveRadix.Proofs.TupleSet.Refinement
import AdaptiveRadix.Proofs.Tree.Height
import AdaptiveRadix.Proofs.Tree.Posts
import AdaptiveRadix.Proofs.Stats.Levels
import AdaptiveRadix.Proofs.Stats.Agreement
import AdaptiveRadix.Proofs.Tree.Census
import AdaptiveRadix.Proofs.Tree.Peak
import AdaptiveRadix.Proofs.Checked.Basic
import AdaptiveRadix.Proofs.Checked.Node
import AdaptiveRadix.Proofs.Checked.Pools
import AdaptiveRadix.Proofs.Checked.Descent
import AdaptiveRadix.Proofs.Checked.Growth
import AdaptiveRadix.Proofs.Checked.Pruning
import AdaptiveRadix.Proofs.Checked.Walk
import AdaptiveRadix.Proofs.Checked.Tree
import AdaptiveRadix.Proofs.Checked.Request
import AdaptiveRadix.Proofs.Checked.TupleSet
import AdaptiveRadix.Proofs.Pool.Growths
import AdaptiveRadix.Proofs.Tree.Retry
import AdaptiveRadix.Proofs.Node.Overwrite
import AdaptiveRadix.Proofs.Tree.Overwrite
import AdaptiveRadix.Proofs.Dump.Printed
import AdaptiveRadix.Proofs.Tree.Filling
import AdaptiveRadix.Proofs.TupleSet.Batch
import AdaptiveRadix.Proofs.TupleSet.Shortage
import AdaptiveRadix.Proofs.Benchmark.Index
import AdaptiveRadix.Proofs.Benchmark.Load
import AdaptiveRadix.Proofs.Tree.Events
import AdaptiveRadix.Proofs.Bits
import AdaptiveRadix.Proofs.Node.Refinement
import AdaptiveRadix.Proofs.Node.Slots
import AdaptiveRadix.Proofs.ChunkSearch
import AdaptiveRadix.Proofs.Node.Leading
import AdaptiveRadix.Proofs.Benchmark.Reaped
import AdaptiveRadix.Proofs.Chunkwise
import AdaptiveRadix.Proofs.Node.Presence
import AdaptiveRadix.Pool.Request
import AdaptiveRadix.Proofs.Pool.History
import AdaptiveRadix.Proofs.Tree.Relocation
import AdaptiveRadix.Proofs.Tree.Regrowth
import AdaptiveRadix.Proofs.Tree.Redirect
