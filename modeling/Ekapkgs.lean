import Ekapkgs.Lib.Keyed
import Ekapkgs.NarSound
import Ekapkgs.CaTree
import Ekapkgs.NarInfo
import Ekapkgs.Castore
import Ekapkgs.CastoreRules
import Ekapkgs.ChunkSafety
import Ekapkgs.Sample
import Ekapkgs.Lib.Runs
import Ekapkgs.Lib.Codec
import Ekapkgs.ChunkRaces
import Ekapkgs.NarStream
import Ekapkgs.NarStreamSound
import Ekapkgs.Lib.Blocks
import Ekapkgs.StoredTree
import Ekapkgs.CastoreUpload
import Ekapkgs.CastoreRoundTrip
import Ekapkgs.UploadRace
import Ekapkgs.CastoreEvict
import Ekapkgs.GcSafety
import Ekapkgs.FsGcSelect
import Ekapkgs.Upload
import Ekapkgs.FsGcRuns
import Ekapkgs.NegotiateClosure
import Ekapkgs.NegotiateOrder
import Ekapkgs.Existence
import Ekapkgs.ExistenceRows
import Ekapkgs.ExistenceSound
import Ekapkgs.RecoverySafe
import Ekapkgs.CasPullSound
import Ekapkgs.NarinfoCache
import Ekapkgs.StreamNars
import Ekapkgs.StreamNarsSound
import Ekapkgs.DeltaCache
import Ekapkgs.DeltaStreams
import Ekapkgs.DeltaIndex
import Ekapkgs.Certificates
import Ekapkgs.CertificatesSound
import Ekapkgs.Lib.Firsts
import Ekapkgs.Compression
import Ekapkgs.CompressChunks
import Ekapkgs.Tokens
import Ekapkgs.TokenRaces
import Ekapkgs.CasGcTarget
import Ekapkgs.StreamImport
import Ekapkgs.Backfill
import Ekapkgs.Push
import Ekapkgs.PushText
import Ekapkgs.PushSound
import Ekapkgs.NarInfoText
import Ekapkgs.Fingerprint
import Ekapkgs.Lib.Joined
import Ekapkgs.FlakeLock
import Ekapkgs.BootEntriesKept
import Ekapkgs.BackgroundApply
import Ekapkgs.Activation
import Ekapkgs.FsGcShared
import Ekapkgs.TornNarinfo
import Ekapkgs.RoundTrip
import Ekapkgs.NarBounds
import Ekapkgs.SubstituterSound
import Ekapkgs.EnvTrust
import Ekapkgs.EnvScriptSound
import Ekapkgs.ClientStores
import Ekapkgs.HexDecode
import Ekapkgs.ClientIndex
import Ekapkgs.ClientEvict
import Ekapkgs.Lib.Recency
import Ekapkgs.AccessTimes
import Ekapkgs.ChunkUpload
import Ekapkgs.DecomposeAgrees
import Ekapkgs.MetadataBatch
import Ekapkgs.UserUnits
import Ekapkgs.UserUnitsSound
import Ekapkgs.UnitsConverge
import Ekapkgs.PackageLinks
import Ekapkgs.StreamWriters
import Ekapkgs.Lib.Grouped
import Ekapkgs.Sbom
import Ekapkgs.SbomGraph
import Ekapkgs.SbomDiff
import Ekapkgs.Serve
import Ekapkgs.Lib.NixLexer
import Ekapkgs.Lib.NixRaw
import Ekapkgs.Lib.NixTerms
import Ekapkgs.Lib.NixAttrs
import Ekapkgs.NixExprs
import Ekapkgs.ClientConfig
import Ekapkgs.DirCacheLru
import Ekapkgs.BloomBytes
import Ekapkgs.LibDir
import Ekapkgs.CalendarDates
import Ekapkgs.RequestText
import Ekapkgs.Highlight
import Ekapkgs.LibFs
import Ekapkgs.PurgeServices
import Ekapkgs.Generations
import Ekapkgs.HomeSwitch
import Ekapkgs.NarinfoRenderers
import Ekapkgs.ServedUploads
import Ekapkgs.NarHashText
import Ekapkgs.DeltaUse
import Ekapkgs.DirectUnits
import Ekapkgs.ConfigKeys
import Ekapkgs.DirectUnitText
import Ekapkgs.NixValues
import Ekapkgs.Templates
import Ekapkgs.TemplatesSound
import Ekapkgs.Lib.Once
import Ekapkgs.CasWalk
import Ekapkgs.CasWalkSound
import Ekapkgs.ChunkNegotiation
import Ekapkgs.ChunkNegotiationSound
import Ekapkgs.PullRuns
import Ekapkgs.PullDelivers
import Ekapkgs.History
