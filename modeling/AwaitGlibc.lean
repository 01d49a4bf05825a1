import AwaitGlibc.CheckedArray
import AwaitGlibc.CText
import AwaitGlibc.SystemCalls
import AwaitGlibc.PreopenPaths
import AwaitGlibc.PreopenLists
import AwaitGlibc.Preopen
import AwaitGlibc.Open64
import AwaitGlibc.OpenEffects
import AwaitGlibc.OpenBuffers
import AwaitGlibc.OpenRuns
import AwaitGlibc.PreopenConfinement
import AwaitGlibc.DlStrtoul
import AwaitGlibc.OpenatPaths
import AwaitGlibc.OpenatLists
import AwaitGlibc.CandidateSearch
import AwaitGlibc.LibraryPaths
import AwaitGlibc.LibrarySearch
import AwaitGlibc.SearchOrder
import AwaitGlibc.MapObject
import AwaitGlibc.ExecDescriptor
import AwaitGlibc.EnvVars
import AwaitGlibc.SecureSearch
import AwaitGlibc.ProgramOptions
import AwaitGlibc.Tunables
import AwaitGlibc.TunablesFilter
import AwaitGlibc.FindObject
import AwaitGlibc.FindObjectSearch
import AwaitGlibc.FindObjectMerge
import AwaitGlibc.FindObjectTable
import AwaitGlibc.FindObjectReader
import AwaitGlibc.FindObjectInit
import AwaitGlibc.DepthFirst
import AwaitGlibc.SortMaps
import AwaitGlibc.SortMapsOriginal
import AwaitGlibc.CloseWorker
import AwaitGlibc.ByteLayout
import AwaitGlibc.LibraryOrder
import AwaitGlibc.LibraryOrderWrapped
import AwaitGlibc.SearchCache
import AwaitGlibc.Strverscmp
import AwaitGlibc.TlsModuleIds
import AwaitGlibc.TlsModuleSlots
import AwaitGlibc.TlsModuleRuns
import AwaitGlibc.ThreadTls
import AwaitGlibc.ThreadTlsUpdate
import AwaitGlibc.ThreadTlsRuns
import AwaitGlibc.SizeT
import AwaitGlibc.StaticTls
import AwaitGlibc.StaticTlsLayout
import AwaitGlibc.StaticTlsRuns
import AwaitGlibc.Interleaving
import AwaitGlibc.Semaphore
import AwaitGlibc.SemaphoreSound
import AwaitGlibc.Once
import AwaitGlibc.ByteMemory
import AwaitGlibc.Msort
import AwaitGlibc.MsortRefines
import AwaitGlibc.CyclePermutation
import AwaitGlibc.QsortIndirect
import AwaitGlibc.QsortSound
import AwaitGlibc.RingList
import AwaitGlibc.StackLists
import AwaitGlibc.StackListsFork
import AwaitGlibc.StackListsReclaim
import AwaitGlibc.FileStream
import AwaitGlibc.OutputStream
import AwaitGlibc.FileContent
import AwaitGlibc.FileStreamInput
import AwaitGlibc.UpdateStream
import AwaitGlibc.UpdateStreamOutput
import AwaitGlibc.UpdateStreamInput
import AwaitGlibc.UpdateStreamSeek
import AwaitGlibc.Barrier
import AwaitGlibc.BarrierSound
import AwaitGlibc.Dynarray
import AwaitGlibc.DynarraySound
import AwaitGlibc.Gregorian
import AwaitGlibc.Offtime
import AwaitGlibc.Mktime
import AwaitGlibc.MktimeSound
import AwaitGlibc.TzfileSearch
import AwaitGlibc.GconvLoop
import AwaitGlibc.Utf8Codec
import AwaitGlibc.Utf8Form
import AwaitGlibc.Utf8CodecSound
import AwaitGlibc.Iso2022CnExt
import AwaitGlibc.NsName
import AwaitGlibc.NsNameSound
import AwaitGlibc.NsNameUnpack
import AwaitGlibc.NsSamedomain
import AwaitGlibc.PreopenMatch
import AwaitGlibc.DescriptorTokens
import AwaitGlibc.TunableBounds
import AwaitGlibc.TunablesInit
import AwaitGlibc.MapSegments
import AwaitGlibc.MapSegmentsAligned
import AwaitGlibc.MapSegmentsSound
import AwaitGlibc.OpenVerify
import AwaitGlibc.HwcapsPriorities
import AwaitGlibc.Memalign
import AwaitGlibc.Tdelete
