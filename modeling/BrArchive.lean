import BrArchive.Filename
import BrArchive.Bwt
import BrArchive.BwtSafety
import BrArchive.CodeTree
import BrArchive.CanonicalCode
import BrArchive.GreedyMerge
import BrArchive.OptimalMerge
import BrArchive.Huffman
import BrArchive.HuffmanDecoding
import BrArchive.HuffmanLengths
import BrArchive.HuffmanRoundTrip
import BrArchive.CodeTables
import BrArchive.XorLinear
import BrArchive.Crc32c
import BrArchive.CompressCrc
import BrArchive.Mtf
import BrArchive.Rle
import BrArchive.WhileLoop
import BrArchive.IoFile
import BrArchive.MetaEntry
import BrArchive.Chunks
import BrArchive.HuffmanSize
import BrArchive.HuffmanOptimal
import BrArchive.HuffmanWidths
import BrArchive.ChunkLoops
import BrArchive.DecompressBounds
import BrArchive.CompressRoundTrip
import BrArchive.ExpandingFile
import BrArchive.TreeDir
import BrArchive.FileSystem
import BrArchive.FileCtx
import BrArchive.OverwriteConsent
import BrArchive.ContentsPassing
import BrArchive.EntryPath
import BrArchive.EntryPassing
import BrArchive.TestPredicts
import BrArchive.EntryRecords
import BrArchive.ArchiveRoundTrip
import BrArchive.RlePasses
import BrArchive.MtfLoops
import BrArchive.Crc32cSse42
import BrArchive.CompressFallback
import BrArchive.TreeDirRuns
import BrArchive.PackPlan
import BrArchive.EntryFields
import BrArchive.PackedNames
import BrArchive.SfxName
import BrArchive.Wildcards
import BrArchive.AlteredContents
import BrArchive.WriterFrame
import BrArchive.FileSearch
import BrArchive.ProgramArgs
import BrArchive.ArgumentMeaning
import BrArchive.SfxArchive
import BrArchive.PackedRecords
import BrArchive.Consuming
import BrArchive.ReadersConsume
import BrArchive.Unpacking
import BrArchive.ArchiveFormat
import BrArchive.PackedRuns
import BrArchive.SortIndependence
import BrArchive.Extraction
import BrArchive.PackUnpack
import BrArchive.PackCommand
import BrArchive.ArchiveName
import BrArchive.SelfExtraction
import BrArchive.BraRun
import BrArchive.HandlePrograms
import BrArchive.FileHandles
import BrArchive.EntryHandles
