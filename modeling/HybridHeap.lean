import HybridHeap.LinkedMap.View
import HybridHeap.Script.Run
import HybridHeap.Proofs.Contents
import HybridHeap.Proofs.Heap.Census
import HybridHeap.Proofs.Heap.Release
import HybridHeap.Proofs.Heap.Mark
import HybridHeap.Proofs.Heap.Collect
import HybridHeap.Proofs.Heap.Balance
import HybridHeap.Proofs.Values
import HybridHeap.Proofs.Heap.Update
import HybridHeap.Proofs.World.Census
import HybridHeap.Proofs.World.Balance
import HybridHeap.Proofs.World.Commit
import HybridHeap.Proofs.World.Moment
import HybridHeap.Proofs.Unmanaged.Evaluate
import HybridHeap.Proofs.Unmanaged.Session
import HybridHeap.Proofs.Mirror.World
import HybridHeap.Proofs.Mirror.Cells
import HybridHeap.Proofs.Mirror.Writers
import HybridHeap.Proofs.Mirror.Scopes
import HybridHeap.Proofs.Mirror.Evaluate
import HybridHeap.Proofs.Mirror.Session
import HybridHeap.Proofs.Mirror.Resolve
import HybridHeap.Proofs.Mirror.Perform
import HybridHeap.Proofs.Mirror.Run
import HybridHeap.Proofs.Session.Accounts
import HybridHeap.Proofs.World.Collections
import HybridHeap.Proofs.Session.Collections
import HybridHeap.Proofs.Session.Twice
import HybridHeap.Proofs.Heap.Fates
import HybridHeap.Proofs.World.Ledger
import HybridHeap.Proofs.Heap.Acyclic
import HybridHeap.Proofs.Heap.History
import HybridHeap.Proofs.Session.Checks
import HybridHeap.Proofs.Session.Cycles
import HybridHeap.Proofs.Session.Repeated
import HybridHeap.Proofs.Heap.Changes
import HybridHeap.Proofs.Heap.Threshold
import HybridHeap.Proofs.World.Changes
import HybridHeap.Proofs.Session.Threshold
import HybridHeap.Proofs.Heap.Relabeled
import HybridHeap.Proofs.Heap.Muted
import HybridHeap.Proofs.World.Muted
import HybridHeap.Proofs.Session.Muted
import HybridHeap.Proofs.Session.Triggers
import HybridHeap.Proofs.Heap.Yield
import HybridHeap.Proofs.World.Errands
import HybridHeap.Proofs.World.Disposal
import HybridHeap.Proofs.Session.Order
import HybridHeap.Proofs.Unmanaged.Growth
import HybridHeap.Proofs.Unmanaged.Ranks
import HybridHeap.Proofs.Mirror.Snapshot
import HybridHeap.Proofs.World.Traceless
import HybridHeap.Proofs.Session.Evaluation
import HybridHeap.Proofs.Heap.Orphans
import HybridHeap.Proofs.World.Passage
import HybridHeap.Proofs.Session.Replacement
import HybridHeap.Proofs.Session.Isolation
import HybridHeap.Proofs.Heap.Unswept
import HybridHeap.Proofs.World.Confined
import HybridHeap.Proofs.World.Tally
import HybridHeap.Proofs.World.Failures
import HybridHeap.Proofs.Heap.SlotWrites
import HybridHeap.Proofs.Session.SlotWrites
import HybridHeap.Proofs.World.Listing
import HybridHeap.Proofs.Session.Performances
import HybridHeap.Proofs.Session.Placement
import HybridHeap.Proofs.World.Resolution
import HybridHeap.Proofs.Session.Scoping
import HybridHeap.Proofs.World.Lists
import HybridHeap.Proofs.Bindings
import HybridHeap.Proofs.Session.Binding
import HybridHeap.Proofs.Heap.Scan
import HybridHeap.Proofs.Session.Marking
import HybridHeap.Proofs.Session.ListBuilding
import HybridHeap.Proofs.Heap.Acts
import HybridHeap.Proofs.Heap.Paces
import HybridHeap.Proofs.Heap.Reports
import HybridHeap.Proofs.Heap.Courses
import HybridHeap.Proofs.World.Acts
import HybridHeap.Proofs.Session.Capacity
import HybridHeap.Proofs.World.Logs
import HybridHeap.Proofs.World.Orderly
import HybridHeap.Proofs.Session.Events
import HybridHeap.Proofs.World.Openings
import HybridHeap.Proofs.World.Rolls
import HybridHeap.Proofs.World.Neutral
import HybridHeap.Proofs.Session.Looks
import HybridHeap.Proofs.Session.Openings
import HybridHeap.Proofs.Session.Rolls
import HybridHeap.Proofs.Heap.RootList
