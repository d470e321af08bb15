import CodingExercises.Algorithms.Arrays
import CodingExercises.Algorithms.SimpleQuicksort
import CodingExercises.Algorithms.Quicksort
import CodingExercises.Lib.LinkedList
import CodingExercises.Snippets.ChainedHashTable
import CodingExercises.XyServer.Ticks
import CodingExercises.Lib.Asking
import CodingExercises.Lib.Blocks
import CodingExercises.Lib.StopWait
import CodingExercises.Lib.Words
import CodingExercises.Lib.BitSets
import CodingExercises.Tftp.Netascii
import CodingExercises.Tftp.Correctness
import CodingExercises.Tftp.Recovery
import CodingExercises.Tftp.Retransmit
import CodingExercises.Tftp.Accesses
import CodingExercises.Tftp.Sorcerer
import CodingExercises.Tftp.Peer
import CodingExercises.Tftp.HostNames
import CodingExercises.Coreutils.Cksum
import CodingExercises.Coreutils.Comm
import CodingExercises.Coreutils.ModeAdjust
import CodingExercises.Coreutils.Xstrtol
import CodingExercises.Coreutils.DirName
import CodingExercises.Coreutils.Areadlink
import CodingExercises.Coreutils.Randread
import CodingExercises.Coreutils.IsaacSeeds
import CodingExercises.Coreutils.HumanScale
import CodingExercises.Coreutils.HashCalls
import CodingExercises.Coreutils.FtsRoots
import CodingExercises.Lib.Cursor
import CodingExercises.Coreutils.ChownCore
import CodingExercises.Coreutils.ChownFiles
import CodingExercises.Coreutils.ChownRuns
import CodingExercises.Binutils.Argv
import CodingExercises.Coreutils.RemoveRuns
import CodingExercises.Coreutils.SavewdRuns
import CodingExercises.Coreutils.FtsCycle
import CodingExercises.Coreutils.CycleRuns
import CodingExercises.Lib.Brent
import CodingExercises.Coreutils.CanonicalizeAnswers
import CodingExercises.Coreutils.FtsCwd
import CodingExercises.Coreutils.FtsPath
import CodingExercises.Binutils.ExpandArgv
import CodingExercises.Peotrix.Records
import CodingExercises.PeotrixNginx.Vslprintf
import CodingExercises.File.Formats
import CodingExercises.Lib.Outline
import CodingExercises.File.Softmagic
import CodingExercises.File.CdfTime
import CodingExercises.File.Continuations
import CodingExercises.File.GetBuffer
import CodingExercises.File.IsTar
import CodingExercises.File.Mget
import CodingExercises.File.RelativeOffsets
import CodingExercises.Lib.Guarded
import CodingExercises.File.Recursion
import CodingExercises.File.Ascmagic
import CodingExercises.File.Bounds
import CodingExercises.Coreutils.CommOrder
import CodingExercises.Coreutils.HashWalk
import CodingExercises.Coreutils.HashGrowth
import CodingExercises.Coreutils.Mkancesdirs
import CodingExercises.Coreutils.MkdirP
import CodingExercises.Coreutils.MkdirPRuns
import CodingExercises.Lib.Escapes
import CodingExercises.Lib.ShellQuotes
import CodingExercises.Coreutils.Dircolors
import CodingExercises.Coreutils.Echo
import CodingExercises.Coreutils.Fold
import CodingExercises.Coreutils.UserSpec
import CodingExercises.Lib.Draws
import CodingExercises.Coreutils.Randint
import CodingExercises.Coreutils.RandintLossy
import CodingExercises.Lib.LineEnds
import CodingExercises.Lib.Links
import CodingExercises.File.Cdf
import CodingExercises.File.CdfBounds
import CodingExercises.File.CdfChains
import CodingExercises.File.CdfProperties
import CodingExercises.File.CdfPropertyBounds
import CodingExercises.PeotrixNginx.Cycle
import CodingExercises.Lib.Calendar
import CodingExercises.PeotrixNginx.Gmtime
import CodingExercises.PeotrixNginx.Times
import CodingExercises.PeotrixNginx.TimesText
import CodingExercises.PeotrixNginx.TimesRuns
import CodingExercises.Coreutils.FileNameConcat
import CodingExercises.Coreutils.Rmdir
import CodingExercises.Coreutils.Mktemp
import CodingExercises.Coreutils.Seq
import CodingExercises.Coreutils.Operand2sig
import CodingExercises.Lib.Cells
import CodingExercises.Coreutils.Pwd
import CodingExercises.Binutils.ResponseFiles
import CodingExercises.Lib.Traced
import CodingExercises.Lib.Utf8
import CodingExercises.File.Encoding
import CodingExercises.Lib.Segments
import CodingExercises.Lib.Ledger
import CodingExercises.Coreutils.FtsDescriptors
import CodingExercises.Coreutils.FtsLedger
import CodingExercises.Coreutils.FtsDescriptorRuns
import CodingExercises.Lib.BoundedStack
import CodingExercises.Coreutils.IntRing
import CodingExercises.Coreutils.Mgetgroups
import CodingExercises.Coreutils.NextPrime
import CodingExercises.Lib.ByteOrder
import CodingExercises.File.CdfDecode
import CodingExercises.File.Pstring
import CodingExercises.File.Getstr
import CodingExercises.File.Numeric
import CodingExercises.File.Traps
import CodingExercises.File.Charsets
import CodingExercises.File.FileBuffer
import CodingExercises.File.Apprentice
import CodingExercises.File.ApprenticeSets
import CodingExercises.File.ParseLine
import CodingExercises.File.WrittenLines
import CodingExercises.File.Readelf
import CodingExercises.File.ReadelfRuns
import CodingExercises.File.ReadelfHeaders
import CodingExercises.Lib.SignedDivision
import CodingExercises.File.IndirectOffsets
import CodingExercises.File.Search
