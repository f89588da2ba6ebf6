import QTrace.Analysis.DetailScan
import QTrace.Analysis.KeySort
import QTrace.Analysis.MemoryFreshness
import QTrace.Analysis.RegisterReplay
import QTrace.Async.Progress
import QTrace.Cache.HeaderBinding
import QTrace.Elf.Agreement
import QTrace.Events.DictionaryRuns
import QTrace.Events.Footer
import QTrace.Flight.DetailChunks
import QTrace.Flight.GapSticky
import QTrace.Flight.Lifecycle
import QTrace.Flight.PairAtomic
import QTrace.Flight.RingLeases
import QTrace.Flight.RowSort
import QTrace.Flight.SequenceSweep
import QTrace.Generation.StatusSnapshot
import QTrace.Modules.SceneRange
import QTrace.Qtrb.Prefix
import QTrace.Qtrb.SharedAgreement
import QTrace.Service.Budget
import QTrace.Service.Retention
import QTrace.Service.Waiting
import QTrace.Store.PostingCodec
import QTrace.Store.PostingQueries
import QTrace.Store.SemanticDetails
import QTrace.Store.Sorting
import QTrace.Store.SourceKeys
