import CSSC.Library.Strip
import CSSC.Library.Decimal
import CSSC.Lines.Linebuf
import CSSC.Body.SeqState
import CSSC.Body.Scanner
import CSSC.Body.Items
import CSSC.Body.DiffScript
import CSSC.Body.Delta
import CSSC.Body.Following
import CSSC.Body.Writing
import CSSC.Body.ReadBack
import CSSC.Body.Accepted
import CSSC.Body.RoundTrip
import CSSC.Table.DeltaTable
import CSSC.Library.Selection
import CSSC.Table.Record
import CSSC.Table.Requested
import CSSC.Table.Rmdel
import CSSC.Table.Cutoff
import CSSC.Table.Verdict
import CSSC.Lines.Encoding
import CSSC.Body.BodyIO
import CSSC.Runs.Sessions
import CSSC.Files.Lock
import CSSC.Files.PFile
import CSSC.Files.PFileUpdate
import CSSC.Files.CheckIn
import CSSC.Files.Create
import CSSC.Header.Safety
import CSSC.Header.Write
import CSSC.Header.Checksum
import CSSC.Header.RoundTrip
import CSSC.Header.Cdc
import CSSC.Body.Visibility
import CSSC.Body.Counts
import CSSC.Table.Limits
import CSSC.Table.SidReading
import CSSC.Table.RangeRemove
import CSSC.Lines.Sequence
import CSSC.Body.LineLimit
import CSSC.Table.DateFields
import CSSC.Table.DeltaIndex
import CSSC.Commands.Getopt
import CSSC.Library.Triples
import CSSC.Body.WriteSubst
import CSSC.Body.WString
import CSSC.Body.SubstFlag
import CSSC.Body.Detectors
import CSSC.Commands.What
import CSSC.Commands.Prs
import CSSC.Commands.Formats
import CSSC.Lines.SplitString
import CSSC.Library.Annotate
import CSSC.Library.Archive
import CSSC.Runs.Archive
import CSSC.Runs.Project
import CSSC.Files.NfsLock
import CSSC.Files.Unedit
import CSSC.Commands.FrontEnd
import CSSC.Commands.Listing
import CSSC.Commands.Prt
import CSSC.Library.Dialogue
import CSSC.Commands.Driver
import CSSC.Commands.DriverRuns
import CSSC.Commands.DriverSafety
import CSSC.Commands.DriverFiles
