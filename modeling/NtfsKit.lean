import NtfsKit.Lib.Prog
import NtfsKit.Lib.Chunks
import NtfsKit.Lib.Respects
import NtfsKit.Lib.Run
import NtfsKit.Lib.RoundUp
import NtfsKit.Lib.SwapTable
import NtfsKit.Engine.Runlist
import NtfsKit.Engine.RunlistBounds
import NtfsKit.Engine.Libntfs
import NtfsKit.Protocol.View
import NtfsKit.Bridge.File
import NtfsKit.Bridge.Blockmap
import NtfsKit.Bridge.Effect
import NtfsKit.Bridge.ZeroRange
import NtfsKit.Bridge.MapStages
import NtfsKit.Bridge.Extents
import NtfsKit.Bridge.MapSpec
import NtfsKit.Bridge.Complete
import NtfsKit.Bridge.EndSpec
import NtfsKit.Bridge.Marks
import NtfsKit.Protocol.Window
import NtfsKit.Protocol.Landed
import NtfsKit.Protocol.Covered
import NtfsKit.Protocol.Stale
import NtfsKit.System.Model
import NtfsKit.System.Refine
import NtfsKit.System.Writes
import NtfsKit.System.Failures
import NtfsKit.Engine.FullDisk
import NtfsKit.System.ReadPath
import NtfsKit.Lib.WriteThrough
import NtfsKit.Volume.Device
import NtfsKit.Volume.Coherence
import NtfsKit.Volume.Kernel
import NtfsKit.Lib.PathTree
import NtfsKit.Lib.EquivDict
import NtfsKit.Volume.PathText
import NtfsKit.Volume.Namespace
import NtfsKit.Volume.BlockmapFile
import NtfsKit.Volume.TreeSpec
import NtfsKit.Volume.Items
import NtfsKit.Volume.RenameSpec
import NtfsKit.Volume.Rekey
import NtfsKit.Volume.Upcalls
import NtfsKit.Volume.PlainNames
import NtfsKit.Volume.Aliasing
import NtfsKit.Volume.Course
import NtfsKit.Volume.Completion
import NtfsKit.Lib.Buffer
import NtfsKit.Volume.Adapters
import NtfsKit.System.Order
import NtfsKit.Volume.FlatStore
import NtfsKit.Bridge.RawWrites
import NtfsKit.Volume.Eligibility
import NtfsKit.Volume.RenameTrees
import NtfsKit.Volume.RenameCall
import NtfsKit.Volume.Lossless
import NtfsKit.Volume.Caches
import NtfsKit.Volume.CacheRuns
import NtfsKit.Lib.Forest
import NtfsKit.Volume.DirGraph
import NtfsKit.Volume.Cycles
import NtfsKit.Volume.NameCalls
import NtfsKit.Volume.Spellings
import NtfsKit.Volume.Enumerate
import NtfsKit.Volume.Generations
import NtfsKit.Volume.Verifiers
import NtfsKit.Volume.DirPaths
import NtfsKit.Volume.Paging
import NtfsKit.System.Files
import NtfsKit.System.TableMap
import NtfsKit.System.LastName
import NtfsKit.Volume.Emptiness
import NtfsKit.Volume.Symlinks
import NtfsKit.Volume.Purge
import NtfsKit.Lib.Traps
import NtfsKit.Volume.Xattrs
import NtfsKit.Format.LabelTraps
import NtfsKit.Bridge.Tiling
import NtfsKit.Bridge.Pieces
import NtfsKit.Bridge.Remainder
import NtfsKit.Engine.Sparse
import NtfsKit.Bridge.HoleFill
import NtfsKit.Bridge.InitSize
import NtfsKit.Bridge.FailedTruncate
import NtfsKit.Protocol.Live
import NtfsKit.System.FailedMaps
import NtfsKit.Lib.Bytes
import NtfsKit.Format.BootSector
import NtfsKit.Format.VolumeLabel
import NtfsKit.Volume.Maintenance
import NtfsKit.Format.Mkntfs
import NtfsKit.Format.Reentry
import NtfsKit.Format.Clusters
import NtfsKit.Engine.RunClusters
import NtfsKit.Format.Scatter
import NtfsKit.Format.LayoutExact
import NtfsKit.Format.Bitmap
import NtfsKit.Bridge.NkDev
import NtfsKit.Format.RlWrite
import NtfsKit.Format.FilesOnDisk
import NtfsKit.Format.FormatOnDisk
import NtfsKit.Lib.SortedScan
import NtfsKit.Lib.Packed
import NtfsKit.Format.MftRecord
import NtfsKit.Format.AttrTable
import NtfsKit.Format.MstIo
import NtfsKit.Format.SyncMft
import NtfsKit.Format.FormattedLabel
import NtfsKit.Format.DirIndex
import NtfsKit.Format.Hardlinks
import NtfsKit.Format.RootIndex
