import TrantorCli.Environment
import TrantorCli.FsCore.ConfinedRuns
import TrantorCli.FsCore.CopyAtomic
import TrantorCli.FsCore.EarlyStop
import TrantorCli.FsCore.Relink
import TrantorCli.FsCore.RemoveGuards
import TrantorCli.FsCore.Sessions
import TrantorCli.FsOps.Slot
import TrantorCli.Live.Backends
import TrantorCli.Locale.Case
import TrantorCli.Locale.Distinct
import TrantorCli.Locale.Silenced
import TrantorCli.OpenFiles.Accounts
import TrantorCli.OpenFiles.StreamsInTurn
import TrantorCli.OsStr.Unpaired
import TrantorCli.Path.EntryPaths
import TrantorCli.Path.Representations
import TrantorCli.Stdin.Lossless
import TrantorCli.Streams.Failures
import TrantorCli.Streams.Lines
import TrantorCli.Url.Arith.Operations
import TrantorCli.Url.Arith.Ranges
import TrantorCli.Url.DotSegments
import TrantorCli.Url.QueryPairs
import TrantorCli.Url.Resolve
import TrantorCli.Url.Segments
import TrantorCli.Url.Spellings
import TrantorCli.Utc.Sorted
