import JwalkMeta.Queue.Arrival
import JwalkMeta.Queue.BufferLimit
import JwalkMeta.Queue.Priority
import JwalkMeta.Run.Awaited
import JwalkMeta.Run.Cancellation
import JwalkMeta.Run.Parallelism
import JwalkMeta.Run.ReceiverDrop
import JwalkMeta.Run.Serial
import JwalkMeta.Run.Startup
import JwalkMeta.Run.Streamed
import JwalkMeta.Run.Unwinding
import JwalkMeta.WalkDir.Ahead
import JwalkMeta.WalkDir.Alignment
import JwalkMeta.WalkDir.ByteReads
import JwalkMeta.WalkDir.Coverage
import JwalkMeta.WalkDir.DepthFirst
import JwalkMeta.WalkDir.DirInfoChain
import JwalkMeta.WalkDir.Dirents
import JwalkMeta.WalkDir.EntryMetadata
import JwalkMeta.WalkDir.ErrorDepths
import JwalkMeta.WalkDir.FiniteTrees
import JwalkMeta.WalkDir.FsDetect
import JwalkMeta.WalkDir.LoopErrors
import JwalkMeta.WalkDir.Loops
import JwalkMeta.WalkDir.MetadataOptions
import JwalkMeta.WalkDir.Opening
import JwalkMeta.WalkDir.Pruning
import JwalkMeta.WalkDir.ReadFailures
import JwalkMeta.WalkDir.Retries
import JwalkMeta.WalkDir.Room
import JwalkMeta.WalkDir.RootPath
import JwalkMeta.WalkDir.SeveralRoots
import JwalkMeta.WalkDir.SkipHidden
import JwalkMeta.WalkDir.StatSources
import JwalkMeta.WalkDir.StdListing
import JwalkMeta.WalkDir.TransientErrors
import JwalkMeta.WalkDir.Truthful
import JwalkMeta.WalkDir.UnknownTypes
