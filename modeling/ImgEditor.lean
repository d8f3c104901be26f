import ImgEditor.Android.SparseReach
import ImgEditor.Android.SparseDigest
import ImgEditor.Android.BootimgRoundTrip
import ImgEditor.Android.DtimgRoundTrip
import ImgEditor.Android.SparseStatus
import ImgEditor.Fdt.Flatten
import ImgEditor.Fdt.UnflattenReads
import ImgEditor.Fdt.ListPropText
import ImgEditor.Fs.UbiFind
import ImgEditor.Core.SearchExact
import ImgEditor.Core.Libcrc
import ImgEditor.Core.BitmaskOps
import ImgEditor.Disk.GptRoundTrip
import ImgEditor.Disk.GptFind
import ImgEditor.Disk.GptPartsWritten
import ImgEditor.Disk.MbrDetect
import ImgEditor.Disk.GptStride
import ImgEditor.Disk.GptRelisted
import ImgEditor.Disk.PartitionFind
import ImgEditor.UBoot.UenvSize
import ImgEditor.UBoot.UenvList
import ImgEditor.Fs.UbiCache
import ImgEditor.Fs.UbiEnumerate
import ImgEditor.Fs.XfsSparse
import ImgEditor.Fs.SquashfsPoints
import ImgEditor.Fs.SquashfsTables
import ImgEditor.Fs.SquashfsRecords
import ImgEditor.Fs.SquashfsDirs
import ImgEditor.Fs.XfsExtent
import ImgEditor.Fs.XfsInode
import ImgEditor.Fs.ExtentTree
import ImgEditor.Core.StructureRoundTrip
import ImgEditor.Fs.F2fsNat
import ImgEditor.Fs.Ext2Backup
import ImgEditor.Fs.Ext2Layouts
import ImgEditor.Fs.Ext2UnpackFile
import ImgEditor.Fs.Ext2Dirent
import ImgEditor.Fs.Ext2JournalReads
import ImgEditor.Fs.Ext2DirentLoop
import ImgEditor.Fs.Ext2ExtentRecords
import ImgEditor.Fs.DirentWalks
import ImgEditor.Fs.F2fsDirentCalls
import ImgEditor.Fs.Ext2Sparse
import ImgEditor.Fs.UbiNodes
import ImgEditor.Fs.UbiLoadWalk
import ImgEditor.Fs.UbiUnpackFile
import ImgEditor.Disk.Mbr
import ImgEditor.Core.DdReads
import ImgEditor.Core.ExiniComment
import ImgEditor.Core.ExiniCommented
import ImgEditor.Fdt.Fixups
import ImgEditor.Fdt.PhandleReads
import ImgEditor.Android.DtimgDefaults
import ImgEditor.Core.StructurePrint
import ImgEditor.Core.StringReplace
import ImgEditor.Fdt.FitSize
import ImgEditor.Core.VirtualFiles
import ImgEditor.Android.SparseFast
import ImgEditor.Core.Rc4
import ImgEditor.Core.SnprintfContinue
import ImgEditor.Disk.GptUuid
import ImgEditor.Core.HexdumpRecovers
import ImgEditor.Hash.HashContext
import ImgEditor.Android.BootimgHash
import ImgEditor.Core.ListRuns
import ImgEditor.Core.ExiniHeap
import ImgEditor.Fdt.DeviceNodeHeap
import ImgEditor.Fs.UbiBranchHeap
import ImgEditor.Core.LzoDecompress
import ImgEditor.Fs.UbiLzo
import ImgEditor.Fdt.ListNode
import ImgEditor.Fdt.FitUnpack
import ImgEditor.Fs.Ext2UnpackTree
