import CkbJs.Proof.CkbModule.PartialLoading
import CkbJs.Proof.CkbModule.Errors
import CkbJs.Proof.CkbModule.Explicit
import CkbJs.Proof.CkbModule.Blocks
import CkbJs.Proof.CkbModule.Views
import CkbJs.Proof.CkbModule.Exit
import CkbJs.Proof.CellFs.Pack
import CkbJs.Proof.CellFs.Overlay
import CkbJs.Proof.Module.Graph
import CkbJs.Proof.Qjs.Boot
import CkbJs.Proof.Qjs.Jobs
import CkbJs.Proof.Malloc.Order
import CkbJs.Proof.FsLua.Names
import CkbJs.Proof.Module.Mounted
import CkbJs.Proof.Qjs.Options
import CkbJs.Proof.Qjs.Terminated
import CkbJs.Proof.Gc.Runs
import CkbJs.Proof.Bytecode.Truncation
import CkbJs.Proof.Imports
import CkbJs.Proof.FsLua.RoundTrip
import CkbJs.Proof.Readers
import CkbJs.Proof.Stdio.Streams
import CkbJs.Proof.Sort.Array
import CkbJs.Proof.Namespace
