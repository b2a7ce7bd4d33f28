import GoPosix.Ar.Members
import GoPosix.Bc.Compound
import GoPosix.Bc.Halt
import GoPosix.Bc.Panic
import GoPosix.Bc.Registers
import GoPosix.Bc.RoundTrip
import GoPosix.Bc.Scale
import GoPosix.Cksum.Crc
import GoPosix.Comm.Compare
import GoPosix.Common.Spelling
import GoPosix.Cp.Aliasing
import GoPosix.Daemon.Batch
import GoPosix.Daemon.Bucket
import GoPosix.Daemon.Forward
import GoPosix.Daemon.RequestLimit
import GoPosix.Date.Zone
import GoPosix.Dc.Arithmetic
import GoPosix.Dispatch.Stdin
import GoPosix.Echo.Basic
import GoPosix.Expr.Limits
import GoPosix.Expr.Slices
import GoPosix.Factor.Basic
import GoPosix.Find.Basic
import GoPosix.Gzip.Safe
import GoPosix.MkfsMinix.Image
import GoPosix.Od.Basic
import GoPosix.Patch.Run
import GoPosix.Patch.Sections
import GoPosix.Patch.Sound
import GoPosix.Printf.Cursor
import GoPosix.Rx.Crc
import GoPosix.Rx.Transfer
import GoPosix.Sed.Concat
import GoPosix.Sed.Feed
import GoPosix.Sed.Ranges
import GoPosix.Sed.Substitute
import GoPosix.Split.Faithful
import GoPosix.Tail.Partition
import GoPosix.Tar.Confinement
import GoPosix.Testcmd.Posix
import GoPosix.Tr.Basic
import GoPosix.Tsort.Basic
import GoPosix.Unzip.Guard
import GoPosix.Uuencode.RoundTrip
import GoPosix.Xargs.Basic
