import PoolMemalloc.Verified.SizeT
import PoolMemalloc.Verified.Transition
import PoolMemalloc.Verified.WordBitmap
import PoolMemalloc.Ports.BlockArray
import PoolMemalloc.Ports.BitmapRegion
import PoolMemalloc.Ports.BitmapAllocator
import PoolMemalloc.Ports.TlBitmapAllocator
import PoolMemalloc.Ports.BitmapExhaustion
import PoolMemalloc.Ports.BitmapReuse
import PoolMemalloc.Ports.RegionIndex
import PoolMemalloc.Ports.RegionInterleaving
import PoolMemalloc.Ports.BitmapInterleaving
import PoolMemalloc.Ports.ExhaustionMoments
import PoolMemalloc.Ports.TlBitmapInterleaving
import PoolMemalloc.Ports.TlBitmapFailure
import PoolMemalloc.Ports.RegionSession
import PoolMemalloc.Ports.TlBitmapIndependence
import PoolMemalloc.Ports.FreelistAllocator
import PoolMemalloc.Ports.BulkTransfer
import PoolMemalloc.Ports.TlFreelistAllocator
import PoolMemalloc.Ports.TlFreelistInterleaving
import PoolMemalloc.Ports.ThreadCache
import PoolMemalloc.Ports.CacheWorld
import PoolMemalloc.Ports.TlFreelistCalls
import PoolMemalloc.Ports.CacheExhaustion
import PoolMemalloc.Ports.CacheInterference
import PoolMemalloc.Ports.CacheTraffic
import PoolMemalloc.Ports.NumaAllocator
import PoolMemalloc.Ports.NumaCalls
import PoolMemalloc.Ports.PoolSizing
import PoolMemalloc.Ports.NumaPreference
import PoolMemalloc.Ports.NumaOwnership
import PoolMemalloc.Ports.NumaRefusal
import PoolMemalloc.Ports.ThreadExit
import PoolMemalloc.Ports.InstanceWorld
import PoolMemalloc.Ports.TlFreelistInstances
import PoolMemalloc.Ports.NumaInstances
import PoolMemalloc.Ports.InstanceIsolation
import PoolMemalloc.Ports.Instrumentation
import PoolMemalloc.Ports.InstrumentedCache
import PoolMemalloc.Ports.CacheFleet
import PoolMemalloc.Ports.DoubleFree
import PoolMemalloc.Ports.CacheStatistics
import PoolMemalloc.Ports.MultiSizeAllocator
import PoolMemalloc.Ports.MultiSizeClasses
import PoolMemalloc.Ports.FreelistInterleaving
import PoolMemalloc.Verified.LinkedChain
import PoolMemalloc.Verified.Conservation
import PoolMemalloc.Verified.LifoStack
import PoolMemalloc.Verified.Hysteresis
import PoolMemalloc.Verified.Linearization
import PoolMemalloc.Ports.TlFreelistMutex
import PoolMemalloc.Ports.TlFreelistLinearizable
import PoolMemalloc.Ports.TlFreelistShortage
import PoolMemalloc.Verified.Contention
import PoolMemalloc.Ports.TlFreelistLocality
import PoolMemalloc.Ports.TlFreelistAtomics
import PoolMemalloc.Ports.NumaInterleaving
import PoolMemalloc.Verified.BlockService
import PoolMemalloc.Ports.AllocatorServices
import PoolMemalloc.Ports.BenchmarkWorkers
import PoolMemalloc.Ports.ProducerConsumer
import PoolMemalloc.Ports.FreelistBenchmarks
import PoolMemalloc.Verified.Storage
import PoolMemalloc.Ports.Lifetimes
import PoolMemalloc.Ports.FreelistProgress
import PoolMemalloc.Ports.RegionProgress
