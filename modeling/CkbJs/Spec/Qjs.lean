import CkbJs.Impl.Qjs
import CkbJs.Spec.Loader

/-!
# What a run of the program promises

`Boots` says when a run without options may return 0: the script, the dep it
names and the data of that dep pass every check, and evaluating the data ends
without an exception. `Settled` says that nothing is left behind: no pending
job, and no promise that is rejected without a handler. `Quiet` operations
leave nothing behind. `EvaluatesOperand` says what `-e` evaluates, and `ZeroTerminated` that
the parser is given sources that end with a NUL; `Prepared` is what that takes in each mode.
-/

namespace CkbJs.Spec.Qjs

open CkbJs.Impl CkbJs.Impl.Qjs

/-- What becomes of a run. -/
inductive Outcome where
  | returned (ret : Int)
  | stopped (stop : Stop)
  deriving DecidableEq, Repr

def run (env : Env) (argv : List CString) : Outcome × Vm :=
  match (main env argv).run (Vm.init env) with
  | .ok ret s => (.returned ret, s)
  | .error stop s => (.stopped stop, s)

/-- The bytes a request hands to the engine for evaluation. -/
def source : Request → Option (List Byte)
  | .eval source _ _ _ => some source
  | .readObject source => some source
  | .resolveModule => none
  | .evalFunction => none
  | .writeObject => none
  | .dumpError => none

variable (env : Env)

/-! ## Boot -/

/-- The engine answers the request made at time `t` without an exception. -/
def Succeeds (t : Nat) (req : Request) : Prop := ∃ m, (env.engine t req).result = .value m

/-- Evaluating the bytes from time `t` on ends without an exception: as
bytecode, which is read, resolved if it is a module, and run, or as source. -/
def Evaluates (t : Nat) (bytes : List Byte) : Prop :=
  if bytes.head? = some BC_VERSION then
    (env.engine t (.readObject bytes)).result = .value false ∧ Succeeds env (t + 1) .evalFunction ∨
    (env.engine t (.readObject bytes)).result = .value true ∧
      Succeeds env (t + 1) .resolveModule ∧ Succeeds env (t + 2) .evalFunction
  else Succeeds env t (.eval bytes "<run_from_file>" false false)

/-- The arguments of the script. -/
def args : List Byte :=
  env.molecule.bytesRawBytes (env.molecule.scriptGetArgs (env.kernel.item .script))

/-- The answer of the dep lookup for the code hash and hash type in the
arguments. -/
def dep : Int × Nat := env.lookForDep (((args env).drop 2).take 32) ((args env).getD 34 0)

/-- The load of the data of the dep found. -/
def depData : CkbModule.LoadReq := .cellData (dep env).2 CKB_SOURCE_CELL_DEP

/-- The bytes to evaluate: the data of the dep found. -/
def code : List Byte := env.kernel.item (depData env)

/-- The checks that the script and its code pass before the code is loaded. -/
structure Admits : Prop where
  loadScript : env.kernel.loadRet 0 .script = 0
  scriptSize : (env.kernel.item .script).length ≤ 32768
  scriptVerify : env.molecule.scriptVerify (env.kernel.item .script) = true
  argsSize : 35 ≤ (args env).length
  depFound : (dep env).1 = 0
  probe : env.kernel.loadRet 1 (depData env) = 0
  nonEmpty : code env ≠ []

/-- A run without options boots. -/
structure Boots : Prop where
  newRuntime : env.newRuntime = true
  newContext : env.newContext = true
  admits : Admits env
  fits : (code env).length + 1 ≤ env.stackRoom
  loadCode : env.kernel.loadRet 2 (depData env) = 0
  evaluates : Evaluates env 3 (code env)

/-- The engine's result ends the process. -/
inductive Ends : Result → Stop → Prop
  | exited (code : Int) : Ends (.exited code) (.exited code)
  | lost : Ends .lost .lost

/-- What it takes to end a run without options before `main` returns: a
script and a code that pass every check, and then a stack too small for the
code, or a script that ends the process. -/
structure Interrupted (stop : Stop) : Prop where
  newRuntime : env.newRuntime = true
  newContext : env.newContext = true
  admits : Admits env
  cause : (stop = .stackOverflow ∧ env.stackRoom < (code env).length + 1) ∨
    env.kernel.loadRet 2 (depData env) = 0 ∧ ∃ t req, Ends (env.engine t req).result stop

/-! ## Nothing left behind -/

/-- The promise is rejected without a handler. -/
def Unhandled (p : Promise) : Prop := p.state = .rejected ∧ p.isHandled = false

structure Settled (rt : Runtime) : Prop where
  noJobs : rt.jobs = []
  noUnhandled : ∀ p ∈ rt.promises, ¬Unhandled p

/-- The operation, in this state, neither enqueues a job nor rejects a pending
promise. -/
def Quiet (rt : Runtime) : Op → Prop
  | .newPromise => True
  | .fulfillOrReject p isReject _ => ∀ s, rt.promises[p]? = some s → s.state = .pending →
      isReject = false ∧ s.reactions = 0
  | .performThen p _ => ∀ s, rt.promises[p]? = some s → s.state = .pending
  | .resolveThenable _ => False
  | .dynamicImport _ => False

/-- All the operations are quiet, each in the state it is performed in. -/
def AllQuiet (rt : Runtime) : List Op → Prop
  | [] => True
  | op :: ops => Quiet rt op ∧ AllQuiet (rt.step op) ops

/-- All the job entries of the operation can be allocated. -/
def Allocates : Op → Prop
  | .newPromise => True
  | .fulfillOrReject _ _ alloc => ∀ i, alloc i = true
  | .performThen _ alloc => ∀ i, alloc i = true
  | .resolveThenable alloc => ∀ i, alloc i = true
  | .dynamicImport alloc => ∀ i, alloc i = true

/-! ## The operand of `-e` -/

/-- The argument that follows the first `-e`. -/
def operand (argv : List CString) : Option CString := argv[argv.idxOf optE + 1]?

/-- `main` evaluates the string: it goes on as `eval_buf` of it does, once there is a context. -/
def RunsCode (argv : List CString) (code : CString) : Prop :=
  ∀ env : Env, env.newRuntime = true → env.newContext = true → main env argv = evalCmdline env code

/-- If `parse_args` takes the arguments for a call with `-e`, the string that `main` evaluates
is the operand of the first `-e`, which is there. -/
def EvaluatesOperand (argv : List CString) : Prop :=
  parseArgs argv = .runJsWithCode → ∃ code, operand argv = some code ∧ RunsCode argv code

/-! ## The input of the parser -/

/-- The memory with a byte string in the stack buffer. -/
def stack (bs : List Byte) : Mem := env.junk.write env.stackBuf bs

/-- What `read_local_file` stores. -/
def localFile : List Byte := (env.readLocalFile localFileSize).2.take localFileSize

/-- What `read_local_file` returns. -/
def localCount : Int := (env.readLocalFile localFileSize).1

/-- The buffer that the source of a run is in, as an archive if there is one in it: the string
in `argv`, the array for the data of the cell, or the one for a local file. -/
def buffer (argv : List CString) : CellFs.Archive :=
  match parseArgs argv with
  | .runJsWithCode => ⟨env.argvBuf, (argv.getD 1 .empty).1.length + 1⟩
  | .runJsWithFile => ⟨env.stackBuf, (code env).length + 1⟩
  | .runJsWithFileSystem => ⟨env.stackBuf, (code env).length + 1⟩
  | .runJsWithDbgFile => ⟨env.stackBuf, localFileSize⟩
  | .runJsWithDbgFileSystem => ⟨env.stackBuf, localFileSize⟩
  | .compileWithFile => ⟨env.stackBuf, localFileSize⟩
  | .runJsError => ⟨0, 0⟩

/-- Whether or not there is memory for the file system, the sources that a run gives to the
parser end with a NUL in their buffer; and so do those of the modules that are loaded from
mounted archives. -/
structure ZeroTerminated (argv : List CString) (mem : Mem) (S : CellFs.Archive → Prop) : Prop where
  main : ∀ alloc, ∀ call ∈ (run { env with alloc := alloc } argv).2.evals,
    Loader.Terminated (buffer env argv) call
  modules : Loader.LoadsTerminated mem S

/-- An entry file of an archive: `main.js`, or `main.bc`, which is evaluated where `main.js` is
missing or there is no memory to look it up. -/
def MainFile (mem : Mem) (a : CellFs.Archive) (e : CellFs.FSEntry) : Prop :=
  a.First mem mainFileName e ∨ a.First mem mainFileNameBc e

/-- The data of a cell is loaded. -/
structure Loads : Prop where
  admits : Admits env
  fits : (code env).length + 1 ≤ env.stackRoom
  loadCode : env.kernel.loadRet 2 (depData env) = 0

/-- A local file is read. -/
def Reads : Prop := ¬(localCount env < 0 ∨ localCount env = localFileSize)

/-- What it takes that the source of a run ends with a NUL: with `-e`, that the length of the
string survives its conversions; with an archive, that there is a NUL behind its entry files; with
`-c`, that there was one on the stack behind the file. -/
def Prepared (argv : List CString) : Prop :=
  env.newRuntime = true → env.newContext = true →
    match parseArgs argv with
    | .runJsWithCode => (argv.getD 1 .empty).1.head? ≠ some BC_VERSION →
        CkbModule.size (Int.bmod (argv.getD 1 .empty).1.length (2 ^ 32)) = (argv.getD 1 .empty).1.length
    | .runJsWithFileSystem => Loads env → ∀ e, MainFile (stack env (code env)) (buffer env argv) e →
        Loader.Followed (stack env (code env)) (buffer env argv) e
    | .runJsWithDbgFileSystem => Reads env → ∀ e, MainFile (stack env (localFile env)) (buffer env argv) e →
        Loader.Followed (stack env (localFile env)) (buffer env argv) e
    | .compileWithFile => Reads env →
        stack env (localFile env) (env.stackBuf + CkbModule.size (localCount env)) = 0
    | .runJsError => True
    | .runJsWithFile => True
    | .runJsWithDbgFile => True

end CkbJs.Spec.Qjs
