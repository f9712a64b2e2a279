import HnswRvv.Bindings.AddItems
import HnswRvv.Bruteforce.Reload
import HnswRvv.Dataset.Labels
import HnswRvv.Framework.NearestBeam
import HnswRvv.Framework.WeakestPre
import HnswRvv.Index.AllocationFailure
import HnswRvv.Index.Descent
import HnswRvv.Index.DocumentTies
import HnswRvv.Index.Inbound
import HnswRvv.Index.InsertFault
import HnswRvv.Index.MemoryBlocks
import HnswRvv.Index.Reload
import HnswRvv.Index.Replacement
import HnswRvv.Index.Selection
import HnswRvv.Index.State
import HnswRvv.Index.StopCondition
import HnswRvv.Index.Truncation
import HnswRvv.Index.VisitedListPool
import HnswRvv.Kernel.ByteDistance
import HnswRvv.Kernel.MultiVector
