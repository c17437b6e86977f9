import Turbofile.Binary.Concurrency
import Turbofile.Bridge.Doorbell
import Turbofile.Bridge.Locking
import Turbofile.Compio.ReadUpTo
import Turbofile.Darwin.Descriptors
import Turbofile.Drivers.Shutdown
import Turbofile.Futures.Driven
import Turbofile.Futures.Handoff
import Turbofile.Text.Readline
import Turbofile.Text.Signature
import Turbofile.Darwin.Actions
import Turbofile.Darwin.Closing
import Turbofile.Binary.Failures
import Turbofile.Bridge.ParallelFill
import Turbofile.Compio.LateCancel
import Turbofile.Text.Failures
import Turbofile.Darwin.Chunks
import Turbofile.Darwin.ReadToEnd
import Turbofile.Darwin.Writes
import Turbofile.Darwin.Offsets
import Turbofile.Darwin.Scheduling
import Turbofile.FastPath.Residency
import Turbofile.Binary.Growing
import Turbofile.Binary.InlineCalls
import Turbofile.Drivers.OpenCancel
import Turbofile.Darwin.Returned
import Turbofile.Futures.Outstanding
import Turbofile.Text.Cursor
import Turbofile.Compio.OwnFiles
import Turbofile.Text.WrittenText
import Turbofile.Darwin.PositionalReads
import Turbofile.Drivers.OpenModes
import Turbofile.Darwin.Serving
import Turbofile.Drivers.Agreement
