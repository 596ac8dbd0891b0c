import NixStore.Util.FsSink
import NixStore.Util.Archive
import NixStore.Util.NarGrammar
import NixStore.Util.NarParser
import NixStore.Util.NarRoundTrip
import NixStore.Util.NarSkip
import NixStore.Lib.Sweep
import NixStore.Store.References
import NixStore.Store.HashModulo
import NixStore.Util.BaseN
import NixStore.Util.CanonPath
import NixStore.Util.CanonPathText
import NixStore.Util.CanonPathOrder
import NixStore.Util.CanonPathRelative
import NixStore.Util.ResolveSymlinks
import NixStore.Util.Hash
import NixStore.Util.HashText
import NixStore.Util.FdSource
import NixStore.Util.FileSystemAt
import NixStore.Util.OpenBeneath
import NixStore.Util.DeletePath
import NixStore.Util.DeletePathBeneath
import NixStore.Util.DeletePathAlone
import NixStore.Util.PosixSourceAccessor
import NixStore.Util.AccessorCalls
import NixStore.Util.DirFdCache
import NixStore.Util.DirFdCount
import NixStore.Util.StreamAdapters
import NixStore.Store.Path
import NixStore.Store.PathGrammar
import NixStore.Util.Signature
import NixStore.Store.ContentAddress
import NixStore.Lib.Acyclic
import NixStore.Lib.Directories
import NixStore.Lib.Effect
import NixStore.Lib.LexOrder
import NixStore.Lib.OrderedSet
import NixStore.Lib.Subtree
import NixStore.Lib.Related
import NixStore.Lib.Stops
import NixStore.Util.LruCache
import NixStore.Util.LruNodes
import NixStore.Util.TopoSort
import NixStore.Store.PathInfo
import NixStore.Util.Json
import NixStore.Store.PathInfoJson
import NixStore.Store.Db
import NixStore.Store.LocalStore
import NixStore.Store.Register
import NixStore.Store.RegisterAtomic
import NixStore.Store.ReadBack
import NixStore.Store.RefsGraph
import NixStore.Lib.Transition
import NixStore.Lib.Rounds
import NixStore.Store.PathLocks
import NixStore.Util.Restore
import NixStore.Store.AddToStore
import NixStore.Store.AddFromDump
import NixStore.Store.ContentAddressed
import NixStore.Store.AddSource
import NixStore.Store.SourcesAgree
import NixStore.Arch.ImportVerified
import NixStore.Store.RoundTrip
import NixStore.Arch.ExportPath
import NixStore.Lib.Inodes
import NixStore.Util.NarCalls
import NixStore.Store.AsyncFileHasher
import NixStore.Store.StreamingDedup
import NixStore.Store.LinkFarm
import NixStore.Store.CapturedHashes
import NixStore.Store.TempRoots
import NixStore.Store.Fingerprint
import NixStore.Store.VerifyPaths
import NixStore.Store.CollectGarbage
import NixStore.Store.CollectQuery
import NixStore.Store.Coherent
import NixStore.Store.HashPart
import NixStore.Lib.Worklist
import NixStore.Store.CollectSearch
import NixStore.Store.CollectDelete
import NixStore.Store.CollectSpecific
import NixStore.Store.CollectLimit
import NixStore.Store.CollectExact
import NixStore.Store.CollectOrder
import NixStore.Util.Closure
import NixStore.Store.RootSpelling
import NixStore.Store.CollectRoots
import NixStore.Store.Importers
import NixStore.Store.OptimiseAlone
import NixStore.Store.OptimiseConverges
import NixStore.Util.Buffering
import NixStore.Util.MoveFile
import NixStore.Lib.Calls
import NixStore.Lib.Emplace
import NixStore.Util.Configuration
import NixStore.Util.CaseHack
import NixStore.Store.CanonicalRestore
import NixStore.Store.CanonicalAgree
import NixStore.Lib.Replace
import NixStore.Util.HashOrder
import NixStore.Util.ThreadPool
import NixStore.Util.ThreadPoolInv
import NixStore.Util.ThreadPoolRuns
import NixStore.Util.ProcessGraph
import NixStore.Util.NodeRoster
import NixStore.Util.ProcessGraphRuns
import NixStore.Store.HashChecks
import NixStore.Store.OpenStore
import NixStore.Store.OpenStoreInv
import NixStore.Store.OpenStoreRuns
import NixStore.Store.AutoGC
import NixStore.Store.AutoGCInv
import NixStore.Store.AutoGCRuns
