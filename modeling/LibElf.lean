import LibElf.Base.Assign
import LibElf.Base.Chain
import LibElf.Base.Crc
import LibElf.Base.Endian
import LibElf.Base.Family
import LibElf.Base.Footprint
import LibElf.Base.Forest
import LibElf.Base.InPlace
import LibElf.Base.Layout
import LibElf.Base.Each
import LibElf.Base.Memory
import LibElf.Base.OpenAddressing
import LibElf.Base.Outcome
import LibElf.Base.Reads
import LibElf.Base.Record
import LibElf.Base.Scatter
import LibElf.Base.Sweep
import LibElf.Base.Table
import LibElf.Base.Word
import LibElf.Base.Writes
import LibElf.Elfutils.Answers
import LibElf.Elfutils.ArNames
import LibElf.Elfutils.ArchiveRange
import LibElf.Elfutils.ArchiveRuns
import LibElf.Elfutils.Archives
import LibElf.Elfutils.Arsym
import LibElf.Elfutils.ArsymExact
import LibElf.Elfutils.Begin
import LibElf.Elfutils.Books
import LibElf.Elfutils.Convert
import LibElf.Elfutils.Crc32
import LibElf.Elfutils.Descriptor
import LibElf.Elfutils.Fetched
import LibElf.Elfutils.GetData
import LibElf.Elfutils.GetNote
import LibElf.Elfutils.Heap
import LibElf.Elfutils.ImageAnswers
import LibElf.Elfutils.LifeCycle
import LibElf.Elfutils.LongNames
import LibElf.Elfutils.NamesSearch
import LibElf.Elfutils.NewData
import LibElf.Elfutils.NextPrime
import LibElf.Elfutils.Nlist
import LibElf.Elfutils.NlistMap
import LibElf.Elfutils.NoteAgree
import LibElf.Elfutils.NoteXlate
import LibElf.Elfutils.OpenImage
import LibElf.Elfutils.Overlap
import LibElf.Elfutils.Query
import LibElf.Elfutils.ReadRuns
import LibElf.Elfutils.Reads
import LibElf.Elfutils.RoundTrip
import LibElf.Elfutils.SectionBlocks
import LibElf.Elfutils.SectionFrame
import LibElf.Elfutils.SectionRoundTrip
import LibElf.Elfutils.StrInside
import LibElf.Elfutils.StrPtr
import LibElf.Elfutils.StrWritten
import LibElf.Elfutils.Translate
import LibElf.Elfutils.Types
import LibElf.Elfutils.UpdateFetch
import LibElf.Elfutils.UpdateFile
import LibElf.Elfutils.UpdateImage
import LibElf.Elfutils.UpdateJobs
import LibElf.Elfutils.UpdateLoop
import LibElf.Elfutils.UpdateNull
import LibElf.Elfutils.UpdateRound
import LibElf.Elfutils.UpdateShown
import LibElf.Elfutils.VersionBack
import LibElf.Elfutils.VersionChains
import LibElf.Elfutils.VersionEnds
import LibElf.Elfutils.VersionXlate
import LibElf.Elfutils.XlateSafe
import LibElf.Toolchain.Archive
import LibElf.Toolchain.ArchiveFormat
import LibElf.Toolchain.ArchiveLoop
import LibElf.Toolchain.ArchiveOpen
import LibElf.Toolchain.Arsym
import LibElf.Toolchain.BadHeader
import LibElf.Toolchain.BsdSymtab
import LibElf.Toolchain.Codec
import LibElf.Toolchain.Convert
import LibElf.Toolchain.ConvertSafe
import LibElf.Toolchain.DataCoverage
import LibElf.Toolchain.Descriptor
import LibElf.Toolchain.Divisors
import LibElf.Toolchain.ExtentList
import LibElf.Toolchain.FailedUpdate
import LibElf.Toolchain.Fits
import LibElf.Toolchain.GElf
import LibElf.Toolchain.GElfHeader
import LibElf.Toolchain.GnuHash
import LibElf.Toolchain.Hash
import LibElf.Toolchain.Header
import LibElf.Toolchain.HeaderFacts
import LibElf.Toolchain.HeaderRuns
import LibElf.Toolchain.LayoutAgain
import LibElf.Toolchain.LibraryLayout
import LibElf.Toolchain.LifeCycle
import LibElf.Toolchain.Lossless
import LibElf.Toolchain.MemberHeaders
import LibElf.Toolchain.MemberNames
import LibElf.Toolchain.NewImage
import LibElf.Toolchain.Notes
import LibElf.Toolchain.NumberRuns
import LibElf.Toolchain.Numbers
import LibElf.Toolchain.PhdrStore
import LibElf.Toolchain.Placement
import LibElf.Toolchain.ReadBack
import LibElf.Toolchain.ReadData
import LibElf.Toolchain.ReadSafety
import LibElf.Toolchain.Records
import LibElf.Toolchain.Refused
import LibElf.Toolchain.Reopen
import LibElf.Toolchain.Resync
import LibElf.Toolchain.Section
import LibElf.Toolchain.SectionImage
import LibElf.Toolchain.SectionLayout
import LibElf.Toolchain.SectionList
import LibElf.Toolchain.Session
import LibElf.Toolchain.SessionRun
import LibElf.Toolchain.StoredImage
import LibElf.Toolchain.StrPtr
import LibElf.Toolchain.StrPtrLayout
import LibElf.Toolchain.Svr4Symtab
import LibElf.Toolchain.SymShndx
import LibElf.Toolchain.Types
import LibElf.Toolchain.Update
import LibElf.Toolchain.Versions
import LibElf.Toolchain.Write
import LibElf.Toolchain.WriteRun
import LibElf.Toolchain.WriterSafe
import LibElf.Toolchain.Xlate
