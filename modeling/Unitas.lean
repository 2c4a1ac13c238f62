import Unitas.Crypt.Filter
import Unitas.Bdiff.Correct
import Unitas.Comm.Columns
import Unitas.Sccs.Closure
import Unitas.Cut.Fields
import Unitas.Dd.Stops
import Unitas.Dd.Swab
import Unitas.Dd.Block
import Unitas.Factor.Law
import Unitas.Unpack.Jumps
import Unitas.Sccs.Lockit
import Unitas.Bnu.Ulockf
import Unitas.Bnu.Output
import Unitas.Bnu.Gio
import Unitas.Bnu.PkLive
import Unitas.Bnu.SlotRuns
import Unitas.Bnu.Erddata
import Unitas.Sccs.Get
import Unitas.Sh.Gmatch
import Unitas.Sh.FuncRuns
import Unitas.Sh.ArgRuns
import Unitas.Sh.Echo
import Unitas.Sh.HashRuns
import Unitas.Sh.JobRuns
import Unitas.Sh.Restore
import Unitas.Split.Stops
import Unitas.Paste.Law
import Unitas.Paste.Bounds
import Unitas.Printf.Stops
import Unitas.Printf.Placed
import Unitas.Printf.Buffers
import Unitas.Spell.Law
import Unitas.Tftp.Law
import Unitas.Wc.Counts
import Unitas.Dc.Remainder
import Unitas.Nl.Law
import Unitas.Sccs.Reservations
import Unitas.Sdiff.Shown
import Unitas.Pack.Levels
import Unitas.Dc.Sqrt
import Unitas.Dc.Storage
import Unitas.Dc.Print
import Unitas.Dc.ArrayRuns
import Unitas.Cut.Bytes
import Unitas.Sh.Names
import Unitas.Diff3.Bounds
import Unitas.Sccs.Encode
import Unitas.Sccs.DelEntry
import Unitas.Sccs.Applied
import Unitas.Sccs.Newsid
import Unitas.Sccs.Tables
import Unitas.Sccs.Rmdel
import Unitas.Sccs.Admin
import Unitas.Bnu.ErdTurns
import Unitas.Bnu.Delivery
import Unitas.Sh.Path
import Unitas.Tftp.Netascii
import Unitas.Sh.Pwd
import Unitas.Sh.Fields
import Unitas.Sh.Word
import Unitas.Sh.Arms
import Unitas.Sh.Loops
import Unitas.Sh.Expression
import Unitas.Newform.Tabs
import Unitas.Sh.Sort
import Unitas.Bnu.CanPath
import Unitas.Bnu.Gename
import Unitas.Sh.Print
import Unitas.Sh.Readvar
import Unitas.Dc.Compare
import Unitas.Dc.Bases
import Unitas.Sccs.Idsubst
import Unitas.Bc.Compile
