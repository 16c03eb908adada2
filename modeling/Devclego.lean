import Devclego.Foundation.Memory
import Devclego.Foundation.Shape
import Devclego.Foundation.Paths
import Devclego.Foundation.Sorted
import Devclego.Foundation.Tally
import Devclego.Foundation.Machine
import Devclego.Foundation.Ring
import Devclego.Foundation.Doubles
import Devclego.Foundation.Split
import Devclego.Foundation.Suffix
import Devclego.Foundation.Sparse
import Devclego.Foundation.Heap
import Devclego.Foundation.Exclusive
import Devclego.Foundation.Newest
import Devclego.Foundation.Rank
import Devclego.Puffers.Datapuffer
import Devclego.Puffers.Fifo
import Devclego.Puffers.Mdatapuffer
import Devclego.Puffers.MultiRead
import Devclego.Puffers.Capacity
import Devclego.Puffers.Recycle
import Devclego.Puffers.Ownership
import Devclego.Components.LifeCycle
import Devclego.Tree.Model
import Devclego.Tree.Represents
import Devclego.Tree.Recycling
import Devclego.Tree.Removal
import Devclego.Tree.Insertion
import Devclego.Tree.Operations
import Devclego.Tree.Calls
import Devclego.Tree.FiniteMap
import Devclego.Tree.Counters
import Devclego.Tree.Extremes
import Devclego.Tree.Alike
import Devclego.Tree.Reset
import Devclego.Tree.Transfer
import Devclego.Tree.Custody
import Devclego.Percentile.Model
import Devclego.Percentile.Invariant
import Devclego.Percentile.Calls
import Devclego.Percentile.Conservation
import Devclego.Percentile.SplitOrder
import Devclego.Percentile.Missing
import Devclego.Percentile.Ranking
import Devclego.Foundation.Condition
import Devclego.Signals.Model
import Devclego.Signals.Safety
import Devclego.Signals.Stranded
import Devclego.Foundation.Linked
import Devclego.Queues.Model
import Devclego.Queues.Deque
import Devclego.Queues.Destruction
import Devclego.Lists.Model
import Devclego.Lists.Doubly
import Devclego.Lists.Copying
import Devclego.Timers.Model
import Devclego.Timers.Arming
import Devclego.Heaps.Model
import Devclego.Heaps.Priority
import Devclego.Heaps.Storage
import Devclego.Heaps.Heapify
import Devclego.Barriers.Model
import Devclego.Barriers.Rounds
import Devclego.Datamaps.Datamap
import Devclego.Datamaps.Refinement
import Devclego.Datamaps.Shutdown
import Devclego.Datamaps.ItemRemoval
import Devclego.Datamaps.Teardown
import Devclego.Foundation.Traced
import Devclego.Datamaps.Bounds
import Devclego.Threads.Model
import Devclego.Threads.Registration
import Devclego.Threads.Lifecycle
import Devclego.Threads.Stopping
import Devclego.Threads.Cancelling
import Devclego.Threads.SlotClaims
import Devclego.Threads.Releasing
import Devclego.Signals.Threader
import Devclego.Sliding.Model
import Devclego.Sliding.Eviction
import Devclego.Sliding.Addition
import Devclego.Sliding.Protocol
import Devclego.Sliding.Integers
import Devclego.Sliding.Window
import Devclego.Sliding.Refresh
import Devclego.Sliding.Observers
import Devclego.Sliding.Minmax
import Devclego.Sliding.Extremes
import Devclego.Sliding.Sums
import Devclego.Foundation.CText
import Devclego.Macs.Model
import Devclego.Macs.RoundTrip
import Devclego.Foundation.Owned
import Devclego.Foundation.Strip
import Devclego.Foundation.Scanning
import Devclego.Dictionaries.Model
import Devclego.Dictionaries.Slots
import Devclego.Dictionaries.Operations
import Devclego.Dictionaries.Refinement
import Devclego.Dictionaries.Order
import Devclego.Ini.Model
import Devclego.Ini.Lines
import Devclego.Ini.Loading
import Devclego.Ini.Accepting
import Devclego.Ini.Queries
import Devclego.Ini.Writing
import Devclego.Ini.RoundTrip
import Devclego.Foundation.Strtol
import Devclego.Ini.Numbers
import Devclego.Foundation.Appending
import Devclego.Program.Model
import Devclego.Program.Events
import Devclego.Program.Running
import Devclego.Arguments.Model
import Devclego.Arguments.Errors
import Devclego.Arguments.Integers
import Devclego.Arguments.Filling
import Devclego.Arguments.Tagged
import Devclego.Arguments.Untagged
import Devclego.Arguments.Parsing
import Devclego.Arguments.Messages
import Devclego.Program.Main
import Devclego.Vectors.Model
import Devclego.Vectors.Refinement
import Devclego.Foundation.ByteOrder
import Devclego.Foundation.Assigning
import Devclego.Utils.Endian
import Devclego.Utils.Words
import Devclego.Utils.Texts
