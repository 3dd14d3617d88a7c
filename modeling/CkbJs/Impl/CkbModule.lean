import CkbJs.Impl.JSValue

/-!
# The syscall bindings

`quickjs/ckb_module.c`: the bindings that load kernel data, run other cells
and exchange content with a parent script. A binding runs in `M`: it changes
the state `Vm` (the C heap blocks it allocated, and a log of the arguments it
read, the conversions it made and the kernel calls it made) and ends early by
a `Stop`. `CHECK` and `CHECK2` are `check` and `check2`.

The outside world is an `Env`: the JS engine, and for every moment of the run
(`Vm.clock`) how the kernel and the allocators answer. A kernel load follows
the partial loading convention: called with capacity `cap` and offset `o` on
an item of `n` bytes it stores `n - o` into `*len` and copies the first
`min cap (n - o)` bytes from `o` to the given address, a null one included; a
failing one changes nothing.
-/

namespace CkbJs.Impl.CkbModule

/-- `(size_t)-1`. -/
def NO_VALUE : Nat := 2 ^ 64 - 1

def SyscallErrorUnknown : Int := 80
def SyscallErrorMemory : Int := 81
def SyscallErrorArgument : Int := 82

/-- The `LoadFunc`s, by the kernel call they make. -/
inductive LoadFunc where
  | txHash
  | transaction
  | scriptHash
  | script
  | cell
  | input
  | header
  | witness
  | cellData
  | cellByField
  | headerByField
  | inputByField
  deriving DecidableEq, Repr

structure LoadData where
  length : Nat
  index : Nat
  source : Nat
  offset : Nat
  field : Nat
  func : LoadFunc
  deriving DecidableEq, Repr

/-- The item a kernel load asks for. -/
inductive LoadReq where
  | txHash
  | transaction
  | scriptHash
  | script
  | cell (index source : Nat)
  | input (index source : Nat)
  | header (index source : Nat)
  | witness (index source : Nat)
  | cellData (index source : Nat)
  | cellByField (index source field : Nat)
  | headerByField (index source field : Nat)
  | inputByField (index source field : Nat)
  deriving DecidableEq, Repr

/-- The arguments each `LoadFunc` hands to its kernel call. -/
def LoadData.request (data : LoadData) : LoadReq :=
  match data.func with
  | .txHash => .txHash
  | .transaction => .transaction
  | .scriptHash => .scriptHash
  | .script => .script
  | .cell => .cell data.index data.source
  | .input => .input data.index data.source
  | .header => .header data.index data.source
  | .witness => .witness data.index data.source
  | .cellData => .cellData data.index data.source
  | .cellByField => .cellByField data.index data.source data.field
  | .headerByField => .headerByField data.index data.source data.field
  | .inputByField => .inputByField data.index data.source data.field

/-- The arguments of `ckb_exec_cell`. -/
structure ExecReq where
  codeHash : List Byte
  hashType : Nat
  offset : Nat
  length : Nat
  argc : Int
  argv : List (Option (List Byte))
  deriving DecidableEq, Repr

/-- The arguments of `ckb_spawn_cell`. -/
structure SpawnReq extends ExecReq where
  memoryLimit : Nat
  contentLength : Nat
  deriving DecidableEq, Repr

/-- What `ckb_spawn_cell` returns and writes through its `spawn_args_t`. -/
structure SpawnReply where
  ret : Int
  exitCode : BitVec 8
  content : List Byte
  contentLength : Nat
  deriving DecidableEq, Repr

/-- How the kernel answers a call made at a given moment. -/
structure Kernel where
  item : LoadReq → List Byte
  loadRet : Nat → LoadReq → Int
  /-- `none` when the process is replaced, else the code `ckb_exec_cell` returns. -/
  exec : Nat → ExecReq → Option Int
  spawn : Nat → SpawnReq → SpawnReply
  setContent : Nat → List Byte → Int

structure Env where
  engine : Engine
  kernel : Kernel
  /-- The lowest address that the program uses. -/
  base : Nat
  /-- Whether a `malloc` of a size made at a given moment succeeds. -/
  malloc : Nat → Nat → Bool
  /-- What a fresh block holds. -/
  junk : Nat → Byte
  /-- Whether the objects a `JS_NewArrayBuffer` needs can be allocated. -/
  newArrayBuffer : Nat → Bool
  newObject : Nat → Bool

/-- What a binding did. -/
inductive Event where
  /-- It read argument slot `i`. -/
  | arg (i : Nat)
  /-- It converted an argument, successfully or not. -/
  | conv (ok : Bool)
  /-- It called a kernel load on a block of `size` bytes (0 for a null
  address) with capacity `cap`. -/
  | load (req : LoadReq) (addr : Option Nat) (size cap offset : Nat) (ret : Int)
  | exec (req : ExecReq) (ret : Int)
  | spawn (req : SpawnReq) (ret : Int)
  | setContent (content : List Byte) (ret : Int)
  | debug (text : Option (List Byte))
  deriving DecidableEq, Repr

structure Vm where
  clock : Nat
  /-- The live C heap blocks and their contents. -/
  blocks : List (Nat × List Byte)
  nextBlock : Nat
  /-- What was stored from address 0 on. -/
  null : List Byte
  events : List Event
  deriving DecidableEq, Repr

def Vm.init : Vm := ⟨0, [], 0, [], []⟩

/-- Why a binding does not run to its end. -/
inductive Stop where
  /-- `return JS_EXCEPTION`. -/
  | exception
  /-- A `CHECK` failed: `goto exit` with `err` set. -/
  | check (err : Int)
  /-- The kernel replaced the process. -/
  | replaced (req : ExecReq)
  /-- `ckb_exit`. -/
  | exited (code : Int)
  /-- A store outside a local array: what happens next is not defined. -/
  | overflow
  deriving DecidableEq, Repr

/-- A value a binding returns. -/
inductive JSResult where
  | value (v : JSValue)
  /-- An array buffer over the first `length` bytes of a C heap block. -/
  | arrayBuffer (block length : Nat)
  /-- The object of `spawn_cell`; its content is an array buffer, or `none`
  where that could not be made. -/
  | spawned (exitCode : JSValue) (content : Option (Nat × Nat))
  deriving DecidableEq, Repr

def JSResult.exception : JSResult := .value .exception

abbrev M := EStateM Stop Vm

/-- The arguments of a call: `argc`, and what each slot of `argv` holds. -/
structure Args where
  argc : Nat
  slot : Nat → JSValue

/-- `js_call_c_function`: the slots up to the arity are readable, the missing
ones undefined; a slot past both holds whatever is on the stack. -/
def callFrame (arity : Nat) (argv : List JSValue) (stale : Nat → JSValue) : Args where
  argc := argv.length
  slot i := if h : i < argv.length then argv[i] else if i < arity then .undefined else stale i

/-! ## The pieces a binding is made of -/

def log (e : Event) : M Unit := modify fun s => { s with events := s.events ++ [e] }

/-- One answer of the world has been used. -/
def tick : M Nat := modifyGet fun s => (s.clock, { s with clock := s.clock + 1 })

def check (err : Int) : M Unit := if err ≠ 0 then throw (.check err) else pure ()

def check2 (cond : Bool) (code : Int) : M Unit := if cond then pure () else throw (.check code)

def Args.get (a : Args) (i : Nat) : M JSValue := do
  log (.arg i)
  pure (a.slot i)

/-- A conversion, whose failure ends the binding with `stop`. -/
def convert {α : Type} (r : Option α) (stop : Stop) : M α := do
  log (.conv r.isSome)
  match r with
  | some x => pure x
  | none => throw stop

variable (env : Env)

/-- The C string that a text starts with. -/
def cText (text : List Byte) : List Byte := text.takeWhile (· ≠ 0)

/-- `JS_ToCString`, for a callee that takes a C string: NULL on an exception,
which does not end the binding. -/
def cString (v : JSValue) : M (Option (List Byte)) := do
  let s := (toCString env.engine v).map cText
  log (.conv s.isSome)
  pure s

def malloc (size : Nat) : M (Option Nat) := do
  let t ← tick
  if env.malloc t size then
    modifyGet fun s => (some s.nextBlock,
      { s with blocks := (s.nextBlock, (List.range size).map env.junk) :: s.blocks
               nextBlock := s.nextBlock + 1 })
  else pure none

def Vm.block (s : Vm) (b : Nat) : List Byte := (s.blocks.lookup b).getD []

/-- The first bytes of a block, overwritten. -/
def Vm.write (s : Vm) (b : Nat) (bs : List Byte) : Vm :=
  { s with blocks := s.blocks.map fun p => if p.1 = b then (b, bs ++ p.2.drop bs.length) else p }

/-- The bytes at an address, overwritten. -/
def Vm.store (s : Vm) (addr : Option Nat) (bs : List Byte) : Vm :=
  match addr with
  | some b => s.write b bs
  | none => { s with null := bs ++ s.null.drop bs.length }

/-- The size of the block at an address; a null address has size 0. -/
def Vm.sizeAt (s : Vm) (addr : Option Nat) : Nat := addr.elim 0 fun b => (s.block b).length

/-- A kernel load at `addr` with `*len = cap`: the return code and the new `*len`. -/
def loadFunc (addr : Option Nat) (cap : Nat) (data : LoadData) : M (Int × Nat) := do
  let t ← tick
  let s ← get
  let req := data.request
  let ret := env.kernel.loadRet t req
  log (.load req addr (s.sizeAt addr) cap data.offset ret)
  if ret ≠ 0 then pure (ret, cap)
  else
    let rest := (env.kernel.item req).drop data.offset
    modify fun s => s.store addr (rest.take cap)
    pure (0, rest.length)

/-- `JS_NewArrayBuffer` over a block: limited to 2 GB. -/
def newArrayBuffer (block : Nat) (len : Nat) : M (Option (Nat × Nat)) := do
  let t ← tick
  pure (if env.newArrayBuffer t ∧ len ≤ 2 ^ 31 - 1 then some (block, len) else none)

/-- An `int64_t` or `int` as a `size_t`. -/
def size (x : Int) : Nat := (x % 2 ^ 64).toNat

/-! ## Loads -/

def parseArgs (hasField : Bool) (a : Args) (func : LoadFunc) : M LoadData := do
  let toInt64 (v : JSValue) : M Int := convert (toInt64Free env.engine v) .exception
  let index ← toInt64 (← a.get 0)
  let source ← toInt64 (← a.get 1)
  let field ← if hasField ∧ a.argc > 2 then toInt64 (← a.get 2) else pure (-1)
  let varArgIndex := if hasField then 3 else 2
  let length ← if a.argc > varArgIndex then toInt64 (← a.get varArgIndex) else pure (-1)
  let offset ← if a.argc > varArgIndex + 1 then toInt64 (← a.get (varArgIndex + 1)) else pure (-1)
  pure
    { func := func
      length := size length
      offset := size offset
      index := size index
      source := size source
      field := size field }

def syscallLoad (data : LoadData) : M JSResult := do
  -- no offset specified, default to 0
  let data := if data.offset = NO_VALUE then { data with offset := 0 } else data
  -- get actual length
  if data.length = 0 then
    let (err, length) ← loadFunc env none data.length data
    check err
    return .value (newUint32 (length % 2 ^ 32))
  -- no length specified, read to the end
  let length ← if data.length = NO_VALUE then do
      let (err, length) ← loadFunc env none data.length data
      check err
      pure length
    else pure data.length
  let addr ← malloc env length
  check2 addr.isSome SyscallErrorMemory
  let addr := addr.getD 0
  let (err, len) ← loadFunc env (some addr) length data
  check err
  let realLen := Int.bmod (if len < length then len else length : Nat) (2 ^ 32)
  match ← newArrayBuffer env addr (size realLen) with
  | some (block, len) => return .arrayBuffer block len
  | none => return .exception

/-- The loads of a hash: 32 bytes from offset 0, whatever the arguments. -/
def hashData (func : LoadFunc) : LoadData :=
  { func := func, length := 32, offset := 0, index := 0, source := 0, field := 0 }

/-- The body the loads built on `parseArgs` share. -/
def loadWith (hasField : Bool) (func : LoadFunc) (a : Args) : M JSResult := do
  let data ← parseArgs env hasField a func
  syscallLoad env data

def syscallLoadTxHash (_ : Args) : M JSResult := syscallLoad env (hashData .txHash)
def syscallLoadTransaction (a : Args) : M JSResult := loadWith env false .transaction a
def syscallLoadScriptHash (_ : Args) : M JSResult := syscallLoad env (hashData .scriptHash)
def syscallLoadScript (a : Args) : M JSResult := loadWith env false .script a
def syscallLoadCell (a : Args) : M JSResult := loadWith env false .cell a
def syscallLoadInput (a : Args) : M JSResult := loadWith env false .input a
def syscallLoadHeader (a : Args) : M JSResult := loadWith env false .header a
def syscallLoadWitness (a : Args) : M JSResult := loadWith env false .witness a
def syscallLoadCellData (a : Args) : M JSResult := loadWith env false .cellData a
def syscallLoadCellByField (a : Args) : M JSResult := loadWith env true .cellByField a
def syscallLoadHeaderByField (a : Args) : M JSResult := loadWith env true .headerByField a
def syscallLoadInputByField (a : Args) : M JSResult := loadWith env true .inputByField a

/-! ## Running other cells -/

/-- The loop that fills `passed_argv[256]` from the arguments `is`. -/
def passArgv (a : Args) (argvOffset : Nat) : List Nat → M (List (Option (List Byte)))
  | [] => pure []
  | i :: is => do
    let s ← cString env (← a.get i)
    check2Overflow (i - argvOffset < 256)
    let rest ← passArgv a argvOffset is
    pure (s :: rest)
where
  /-- A store at an index past the array. -/
  check2Overflow (inside : Bool) : M Unit := if inside then pure () else throw .overflow

/-- The code hash both `exec_cell` and `spawn_cell` start with. -/
def codeHashArg (a : Args) : M (List Byte) := do
  let buffer := getTypedArrayBuffer env.engine (← a.get 0)
  log (.conv (buffer ≠ .exception))
  check2 (buffer ≠ .exception) SyscallErrorArgument
  let p := getArrayBuffer env.engine buffer
  log (.conv p.isSome)
  check2 ((p.getD []).length = 32 ∧ p.isSome) (-1)
  pure (p.getD [])

def syscallExecCell (a : Args) : M JSResult := do
  let argvOffset := 4
  let toUint32 (v : JSValue) : M Nat := convert (toUint32 env.engine v) (.check (-1))
  let codeHash ← codeHashArg env a
  let hashType ← toUint32 (← a.get 1)
  let offset ← toUint32 (← a.get 2)
  let length ← toUint32 (← a.get 3)
  let passedArgv ← passArgv env a argvOffset (List.range' argvOffset (a.argc - argvOffset))
  let req : ExecReq :=
    { codeHash := codeHash, hashType := hashType % 2 ^ 8, offset := offset, length := length
      argc := a.argc - argvOffset, argv := passedArgv }
  match env.kernel.exec (← tick) req with
  | none => throw (.replaced req)
  | some ret =>
    log (.exec req ret)
    return .value .undefined

/-- `get_property`: a property that is not undefined replaces the default. -/
def getProperty (obj : JSValue) (prop : String) (value : Int) : M Int := do
  let val := env.engine.getPropertyStr obj prop
  log (.conv (val ≠ .exception))
  check2 (val ≠ .exception) SyscallErrorArgument
  if val ≠ .undefined then convert (toInt64Free env.engine val) (.check (-1)) else pure value

def syscallSpawnCell (a : Args) : M JSResult := do
  let argvOffset := 3
  let codeHash ← codeHashArg env a
  let hashType ← convert (toUint32 env.engine (← a.get 1)) (.check (-1))
  let contentLength ← getProperty env (← a.get 2) "content_length" 0
  let memoryLimit ← getProperty env (← a.get 2) "memory_limit" 8
  let offset ← getProperty env (← a.get 2) "offset" 0
  let length ← getProperty env (← a.get 2) "length" 0
  let passedArgv ← passArgv env a argvOffset (List.range' argvOffset (a.argc - argvOffset))
  let content ← malloc env (size contentLength)
  check2 content.isSome SyscallErrorArgument
  let content := content.getD 0
  let req : SpawnReq :=
    { codeHash := codeHash, hashType := hashType % 2 ^ 8
      offset := size offset % 2 ^ 32, length := size length % 2 ^ 32
      argc := a.argc - argvOffset, argv := passedArgv
      memoryLimit := size memoryLimit, contentLength := size contentLength }
  let reply := env.kernel.spawn (← tick) req
  log (.spawn req reply.ret)
  check reply.ret
  modify fun s => s.write content reply.content
  let newObject := env.newObject (← tick)
  check2 newObject SyscallErrorMemory
  let exitCode := newUint32 (reply.exitCode.toInt % 2 ^ 32).toNat
  let content2 ← newArrayBuffer env content reply.contentLength
  return .spawned exitCode content2

/-! ## The other bindings -/

def syscallSetContent (a : Args) : M JSResult := do
  let buffer := getTypedArrayBuffer env.engine (← a.get 0)
  log (.conv (buffer ≠ .exception))
  check2 (buffer ≠ .exception) SyscallErrorArgument
  let content := getArrayBuffer env.engine buffer
  log (.conv content.isSome)
  check2 content.isSome SyscallErrorUnknown
  let content := content.getD []
  let err := env.kernel.setContent (← tick) content
  log (.setContent content err)
  check err
  return .value .undefined

def syscallDebug (a : Args) : M JSResult := do
  let str ← cString env (← a.get 0)
  log (.debug str)
  return .value .undefined

def syscallExit (a : Args) : M JSResult := do
  let status ← convert (toInt32Free env.engine (← a.get 0)) .exception
  throw (.exited (status.bmod (2 ^ 8)))

/-- What becomes of a call of a binding. -/
inductive Outcome where
  | returned (v : JSResult)
  | replaced (req : ExecReq)
  | exited (code : Int)
  | undefined
  deriving DecidableEq, Repr

/-- The `exit:` labels: an error is an exception. -/
def Stop.outcome : Stop → Outcome
  | .exception => .returned .exception
  | .check _ => .returned .exception
  | .replaced req => .replaced req
  | .exited code => .exited code
  | .overflow => .undefined

def call (f : Args → M JSResult) (a : Args) (s : Vm) : Outcome × Vm :=
  match (f a).run s with
  | .ok v s => (.returned v, s)
  | .error e s => (e.outcome, s)

/-- The bindings that `js_init_module_ckb` registers and that convert
arguments or make kernel calls. -/
inductive Binding where
  | exit
  | loadTxHash
  | loadTransaction
  | loadScriptHash
  | loadScript
  | debug
  | loadCell
  | loadInput
  | loadHeader
  | loadWitness
  | loadCellData
  | loadCellByField
  | loadHeaderByField
  | loadInputByField
  | execCell
  | spawnCell
  | setContent
  deriving DecidableEq, Repr

def Binding.func : Binding → Args → M JSResult
  | .exit => syscallExit env
  | .loadTxHash => syscallLoadTxHash env
  | .loadTransaction => syscallLoadTransaction env
  | .loadScriptHash => syscallLoadScriptHash env
  | .loadScript => syscallLoadScript env
  | .debug => syscallDebug env
  | .loadCell => syscallLoadCell env
  | .loadInput => syscallLoadInput env
  | .loadHeader => syscallLoadHeader env
  | .loadWitness => syscallLoadWitness env
  | .loadCellData => syscallLoadCellData env
  | .loadCellByField => syscallLoadCellByField env
  | .loadHeaderByField => syscallLoadHeaderByField env
  | .loadInputByField => syscallLoadInputByField env
  | .execCell => syscallExecCell env
  | .spawnCell => syscallSpawnCell env
  | .setContent => syscallSetContent env

/-- The length each function is registered with. -/
def Binding.arity : Binding → Nat
  | .exit | .loadTxHash | .loadTransaction | .loadScriptHash | .loadScript | .debug => 1
  | .loadCell | .loadInput | .loadHeader | .loadWitness | .loadCellData => 3
  | .loadCellByField | .loadHeaderByField | .loadInputByField => 4
  | .execCell => 4
  | .spawnCell => 3
  | .setContent => 1

/-- The form in which `js_init_module_ckb` exports a constant. -/
def exportConst (v : Nat) : JSValue := if v < 2 ^ 32 then newInt64 v else newBigUint64 v

end CkbJs.Impl.CkbModule
