import CkbJs.Impl.CellFs
import CkbJs.Impl.CkbModule
import CkbJs.Impl.Loader
import CkbJs.Impl.Promise

/-!
# The program

`quickjs/qjs.c`, from `main` down to `eval_buf`, and `load_cell_code_info` and
`load_cell_code` of `quickjs/ckb_module.c`. The JS engine is a parameter: for
every moment of the run (`Vm.clock`) it answers the request `main` makes of it
with the operations on promises that the evaluated code performs and with a
result. So are the kernel (as in `CkbModule`), the molecule reader and
`ckb_look_for_dep_with_hash2`, which are not part of the repository.

The string that `-e` evaluates is at `argvBuf`. The buffers of
`run_from_cell_data` and `run_from_local_file` are on the C stack at
`stackBuf`; a variable length array that does not fit into
`stackRoom`, which is far below 2³¹ in the 4 MB of a VM, ends the run.
-/

namespace CkbJs.Impl.Qjs

inductive RunJSType where
  | runJsError
  | runJsWithCode
  | runJsWithFile
  | runJsWithFileSystem
  | runJsWithDbgFile
  | runJsWithDbgFileSystem
  | compileWithFile
  deriving DecidableEq, Repr

def optR : CString := ⟨[45, 114], by decide⟩
def optF : CString := ⟨[45, 102], by decide⟩
def optE : CString := ⟨[45, 101], by decide⟩
def optC : CString := ⟨[45, 99], by decide⟩

def parseArgs (argv : List CString) : RunJSType :=
  let hasR := optR ∈ argv
  let hasF := optF ∈ argv
  let hasE := optE ∈ argv
  let hasC := optC ∈ argv
  if hasC then .compileWithFile
  else if hasE then
    if argv.length < 2 then .runJsError
    else if hasR ∨ hasF then .runJsError
    else .runJsWithCode
  else if hasR then
    if hasF then .runJsWithDbgFileSystem else .runJsWithDbgFile
  else if hasF then .runJsWithFileSystem
  else .runJsWithFile

/-- What `main` asks of the engine. -/
inductive Request where
  /-- `JS_Eval` of the source, with the bits of `eval_flags` that are used. -/
  | eval (source : List Byte) (filename : String) (module compileOnly : Bool)
  /-- `JS_ReadObject`. -/
  | readObject (source : List Byte)
  /-- `JS_ResolveModule`, on the module just read. -/
  | resolveModule
  /-- `JS_EvalFunction`, on what was just read or compiled. -/
  | evalFunction
  /-- `JS_WriteObject`, on the module just compiled. -/
  | writeObject
  /-- `js_std_dump_error`, which can run a method of the exception. -/
  | dumpError
  deriving DecidableEq, Repr

inductive Result where
  | value (isModule : Bool)
  | exception
  /-- The script called `ckb.exit`. -/
  | exited (code : Int)
  /-- The script replaced the process, or the VM ended it. -/
  | lost
  deriving DecidableEq, Repr

structure Reply where
  ops : List Op
  result : Result

structure Molecule where
  /-- `MolReader_Script_verify` returns `MOL_OK`. -/
  scriptVerify : List Byte → Bool
  /-- `MolReader_Script_get_args`. -/
  scriptGetArgs : List Byte → List Byte
  /-- `MolReader_Bytes_raw_bytes`. -/
  bytesRawBytes : List Byte → List Byte

structure Env where
  engine : Nat → Request → Reply
  kernel : CkbModule.Kernel
  molecule : Molecule
  /-- `ckb_look_for_dep_with_hash2`: its return code and the index it stores. -/
  lookForDep : List Byte → Byte → Int × Nat
  newRuntime : Bool
  newContext : Bool
  /-- `read_local_file` with a size: its return value and the bytes it stores. -/
  readLocalFile : Nat → Int × List Byte
  alloc : CellFs.Alloc
  junk : Mem
  argvBuf : Nat
  stackBuf : Nat
  stackBuf_pos : 0 < stackBuf
  stackRoom : Nat
  stackRoom_lt : stackRoom < 2 ^ 31

structure Vm where
  clock : Nat
  mem : Mem
  fs : CellFs.Fs
  runtime : Runtime
  /-- The operations the engine has performed. -/
  ops : List Op
  /-- The requests that `main` has made of the engine. -/
  requests : List Request
  /-- The calls of `JS_Eval` among them. -/
  evals : List Loader.EvalCall

def Vm.init (env : Env) : Vm := ⟨0, env.junk, CellFs.Fs.init, Runtime.init, [], [], []⟩

/-- Why `main` does not return. -/
inductive Stop where
  | exited (code : Int)
  | lost
  | stackOverflow
  deriving DecidableEq, Repr

abbrev M := EStateM Stop Vm

variable (env : Env)

/-- The engine's answer to a request; the process can end in it. -/
def ask (req : Request) : M Result := do
  let s ← get
  let reply := env.engine s.clock req
  set { s with clock := s.clock + 1
               runtime := s.runtime.run reply.ops
               ops := s.ops ++ reply.ops
               requests := s.requests ++ [req] }
  match reply.result with
  | .exited code => throw (.exited code)
  | .lost => throw .lost
  | r => pure r

/-- `JS_Eval`. -/
def jsEval (input inputLen : Nat) (filename : String) (module compileOnly : Bool) : M Result := do
  let s ← get
  let call : Loader.EvalCall := ⟨s.mem, input, inputLen⟩
  set { s with evals := s.evals ++ [call] }
  ask env (.eval (s.mem.bytes input inputLen) filename module compileOnly)

/-- A kernel load from offset 0 with capacity `cap`: the return code, the new
`*len`, and the bytes stored. -/
def load (req : CkbModule.LoadReq) (cap : Nat) : M (Int × Nat × List Byte) := do
  let s ← get
  set { s with clock := s.clock + 1 }
  let ret := env.kernel.loadRet s.clock req
  if ret ≠ 0 then pure (ret, cap, [])
  else
    let item := env.kernel.item req
    pure (0, item.length, item.take cap)

/-- Bytes stored at an address. -/
def store (addr : Nat) (bs : List Byte) : M Unit :=
  modify fun s => { s with mem := fun x =>
    if addr ≤ x ∧ x < addr + bs.length then bs.getD (x - addr) 0 else s.mem x }

def BC_VERSION : Byte := 2

/-- `js_std_dump_error`. -/
def dumpError : M Unit := do
  let _ ← ask env .dumpError

/-- The end of `eval_buf`. -/
def finish (val : Result) : M Int := do
  if val = .exception then
    dumpError env
    return -1
  else return 0

def evalBuf (buf : Nat) (bufLen : Int) (filename : String) (module : Bool) : M Int := do
  let s ← get
  if s.mem buf = BC_VERSION then
    let val ← ask env (.readObject (s.mem.bytes buf (CkbModule.size bufLen)))
    if val = .exception then
      dumpError env
      return -1
    if val = .value true then
      let resolved ← ask env .resolveModule
      if resolved = .exception then
        dumpError env
        return -1
    finish env (← ask env .evalFunction)
  else if module then
    let val ← jsEval env buf (CkbModule.size bufLen) filename true true
    if val ≠ .exception then finish env (← ask env .evalFunction)
    else finish env val
  else finish env (← jsEval env buf (CkbModule.size bufLen) filename false false)

/-! ## Boot from a cell -/

def SCRIPT_SIZE : Nat := 32768
def JS_LOADER_ARGS_SIZE : Nat := 2
def BLAKE2B_BLOCK_SIZE : Nat := 32
def CKB_SOURCE_CELL_DEP : Nat := 3

/-- `load_cell_code_info`: the return value, `*buf_size` and `*index`. -/
def loadCellCodeInfo : M (Int × Nat × Nat) := do
  let (err, len, script) ← load env .script SCRIPT_SIZE
  if err ≠ 0 then return (err, 0, 0)
  if len > SCRIPT_SIZE then return (-1, 0, 0)
  if ¬env.molecule.scriptVerify script then return (-1, 0, 0)
  let args := env.molecule.bytesRawBytes (env.molecule.scriptGetArgs script)
  if args.length < JS_LOADER_ARGS_SIZE then return (-1, 0, 0)
  if args.length < JS_LOADER_ARGS_SIZE + BLAKE2B_BLOCK_SIZE + 1 then return (-1, 0, 0)
  let codeHash := (args.drop JS_LOADER_ARGS_SIZE).take BLAKE2B_BLOCK_SIZE
  let hashType := args.getD (JS_LOADER_ARGS_SIZE + BLAKE2B_BLOCK_SIZE) 0
  let (err, index) := env.lookForDep codeHash hashType
  if err ≠ 0 then return (err, 0, index)
  let (err, bufSize, _) ← load env (.cellData index CKB_SOURCE_CELL_DEP) 0
  if err ≠ 0 then return (err, bufSize, index)
  if bufSize = 0 then return (-1, bufSize, index)
  return (0, bufSize, index)

/-- `load_cell_code`, into the stack buffer. -/
def loadCellCode (bufSize index : Nat) : M Int := do
  let (ret, _, bytes) ← load env (.cellData index CKB_SOURCE_CELL_DEP) bufSize
  if ret ≠ 0 then return -1
  store env.stackBuf bytes
  return 0

/-- `ckb_get_file`. -/
def ckbGetFile (name : CString) : M (Int × Option CellFs.FSFile) := modifyGet fun s =>
  let (r, fs) := CellFs.getFile s.mem env.alloc name s.fs
  (r, { s with fs := fs })

def runFromFileSystemBuf (buf bufSize : Nat) : M Int := do
  let err ← modifyGet fun s =>
    let (err, fs) := CellFs.loadFs s.mem env.alloc buf bufSize s.fs
    (err, { s with fs := fs })
  if err ≠ 0 then return err
  let (err, file) ← ckbGetFile env mainFileName
  let (err, file) ← if err ≠ 0 then ckbGetFile env mainFileNameBc else pure (err, file)
  if err ≠ 0 then return err
  match file with
  | none => return -1 -- not reached: a success stores a file
  | some file =>
    if file.size = 0 then return -1
    evalBuf env file.content (Int.bmod file.size (2 ^ 32)) "main.js" true

def runFromCellData (enableFs : Bool) : M Int := do
  let (err, bufSize, index) ← loadCellCodeInfo env
  if err ≠ 0 then return err
  if bufSize + 1 > env.stackRoom then throw .stackOverflow
  let err ← loadCellCode env bufSize index
  if err ≠ 0 then return err
  if enableFs then runFromFileSystemBuf env env.stackBuf bufSize
  else
    store (env.stackBuf + bufSize) [0]
    evalBuf env env.stackBuf (Int.bmod bufSize (2 ^ 32)) "<run_from_file>" false

/-! ## The other modes -/

/-- The size of the buffer that local files are read into. -/
def localFileSize : Nat := 1024 * 512

/-- `read_local_file`, into the stack buffer. -/
def readLocalFile : M Int := do
  let (count, bytes) := env.readLocalFile localFileSize
  store env.stackBuf (bytes.take localFileSize)
  pure count

def runFromLocalFile (enableFs : Bool) : M Int := do
  let count ← readLocalFile env
  if count < 0 ∨ count = localFileSize then return -1
  if enableFs then runFromFileSystemBuf env env.stackBuf (CkbModule.size count)
  else
    store (env.stackBuf + CkbModule.size count) [0]
    evalBuf env env.stackBuf count "<run_from_file>" false

def compileFromFile : M Int := do
  let bufLen ← readLocalFile env
  if bufLen < 0 ∨ bufLen = localFileSize then return -1
  let val ← jsEval env env.stackBuf (CkbModule.size bufLen) "" true true
  if val = .exception then
    dumpError env
    return -1
  let outBuf ← ask env .writeObject
  if outBuf = .exception then return -1
  return 0

/-- `eval_buf` of a string of `argv`. -/
def evalCmdline (code : CString) : M Int := do
  store env.argvBuf (code.1 ++ [0])
  evalBuf env env.argvBuf (Int.bmod code.1.length (2 ^ 32)) "<cmdline>" false

def main (argv : List CString) : M Int := do
  let type := parseArgs argv
  if type = .runJsError then return -1
  if ¬env.newRuntime then return -2
  if ¬env.newContext then return -1
  match type with
  | .runJsWithCode => evalCmdline env (argv.getD 1 .empty)
  | .runJsWithFile => runFromCellData env false
  | .runJsWithFileSystem => runFromCellData env true
  | .runJsWithDbgFile => runFromLocalFile env false
  | .runJsWithDbgFileSystem => runFromLocalFile env true
  | .compileWithFile => compileFromFile env
  | .runJsError => return -1

end CkbJs.Impl.Qjs
