import CkbJs.Impl.StdModule

/-!
# What the bindings promise

What the arguments of a call denote (`loadData`, `execHead`, `spawnHead`), the
documented reply of the load bindings (`documented`: the modes of partial
loading), and the three properties a call of a binding is judged by: it
surfaces every failure (`Surfaces`), it hands the kernel only memory it owns
(`InBounds`), and it delivers a documented reply (`Delivers`).
-/

namespace CkbJs.Spec.CkbModule

open CkbJs.Impl CkbJs.Impl.CkbModule

variable (E : Engine)

/-! ## Calls and failures -/

/-- A failed conversion or kernel call. -/
def failed : Event → Bool
  | .conv ok => !ok
  | .load _ _ _ _ _ ret => ret ≠ 0
  | .exec _ ret => ret ≠ 0
  | .spawn _ ret => ret ≠ 0
  | .setContent _ ret => ret ≠ 0
  | .arg _ => false
  | .debug _ => false

/-- A call of a binding from the state `s`, with a log of its own. -/
def run (env : Env) (b : Binding) (a : Args) (s : Vm) : Outcome × Vm :=
  call (b.func env) a { s with events := [] }

/-- If a conversion or a kernel call of the call failed, the script sees an
exception; a call that overflows `passed_argv` shows nothing for certain. -/
def Surfaces (env : Env) (b : Binding) (a : Args) (s : Vm) : Prop :=
  (run env b a s).1 ≠ .undefined ∧
    ((run env b a s).2.events.any failed → (run env b a s).1 = .returned .exception)

/-- Every kernel load of the call gets a capacity of at most the size of the
block at the address it gets. -/
def InBounds (env : Env) (b : Binding) (a : Args) (s : Vm) : Prop :=
  ∀ req addr size cap offset ret,
    Event.load req addr size cap offset ret ∈ (run env b a s).2.events → cap ≤ size

/-! ## What arguments denote -/

/-- The index of the first optional argument. -/
def varArg (hasField : Bool) : Nat := if hasField then 3 else 2

/-- An optional argument, -1 if absent. -/
def optInt64 (present : Prop) [Decidable present] (v : JSValue) : Option Int :=
  if present then toInt64Free E v else some (-1)

/-- What the arguments of a load denote, if all that are read convert. -/
def loadData (hasField : Bool) (a : Args) (func : LoadFunc) : Option LoadData := do
  let index ← toInt64Free E (a.slot 0)
  let source ← toInt64Free E (a.slot 1)
  let field ← optInt64 E (hasField ∧ a.argc > 2) (a.slot 2)
  let length ← optInt64 E (a.argc > varArg hasField) (a.slot (varArg hasField))
  let offset ← optInt64 E (a.argc > varArg hasField + 1) (a.slot (varArg hasField + 1))
  some
    { func := func, length := size length, offset := size offset, index := size index
      source := size source, field := size field }

/-- The arguments of a load. -/
inductive Position where
  | index
  | source
  | field
  | length
  | offset
  deriving DecidableEq, Repr

/-- The slot a load takes an argument from. -/
def Position.slot (hasField : Bool) : Position → Nat
  | .index => 0
  | .source => 1
  | .field => 2
  | .length => varArg hasField
  | .offset => varArg hasField + 1

/-- The arguments that a call's load reads. -/
def Position.Read (hasField : Bool) (a : Args) : Position → Prop
  | .index => True
  | .source => True
  | .field => hasField = true ∧ a.argc > 2
  | .length => a.argc > varArg hasField
  | .offset => a.argc > varArg hasField + 1

/-- The value a load has for an argument. -/
def Position.of (d : LoadData) : Position → Nat
  | .index => d.index
  | .source => d.source
  | .field => d.field
  | .length => d.length
  | .offset => d.offset

/-- Every argument that is read converts. -/
def Converts (hasField : Bool) (a : Args) : Prop :=
  ∀ p : Position, p.Read hasField a → (toInt64Free E (a.slot (p.slot hasField))).isSome

/-- The arguments of a call ask for the item to its end: all that are read
convert, and the length is absent or converts to -1. -/
def ReadsToEnd (hasField : Bool) (a : Args) : Prop :=
  Converts E hasField a ∧
    (a.argc ≤ varArg hasField ∨ toInt64Free E (a.slot (varArg hasField)) = some (-1))

/-- The 32 bytes of a code hash argument. -/
def codeHash (v : JSValue) : Option (List Byte) :=
  let buffer := getTypedArrayBuffer E v
  if buffer = .exception then none else (getArrayBuffer E buffer).filter (·.length = 32)

/-- The code hash, hash type, offset and length of an `exec_cell`. -/
def execHead (a : Args) : Option (List Byte × Nat × Nat × Nat) := do
  let codeHash ← codeHash E (a.slot 0)
  let hashType ← toUint32 E (a.slot 1)
  let offset ← toUint32 E (a.slot 2)
  let length ← toUint32 E (a.slot 3)
  some (codeHash, hashType, offset, length)

/-- A property of `spawn_args`, with its default. -/
def property (obj : JSValue) (prop : String) (value : Int) : Option Int :=
  let v := E.getPropertyStr obj prop
  if v = .exception then none else if v = .undefined then some value else toInt64Free E v

/-- The code hash and hash type of a `spawn_cell`, and the four properties of
its `spawn_args`. -/
def spawnHead (a : Args) : Option (List Byte × Nat × Int × Int × Int × Int) := do
  let codeHash ← codeHash E (a.slot 0)
  let hashType ← toUint32 E (a.slot 1)
  let contentLength ← property E (a.slot 2) "content_length" 0
  let memoryLimit ← property E (a.slot 2) "memory_limit" 8
  let offset ← property E (a.slot 2) "offset" 0
  let length ← property E (a.slot 2) "length" 0
  some (codeHash, hashType, contentLength, memoryLimit, offset, length)

/-- The C strings of the trailing arguments, from `argvOffset` on. -/
def trailing (a : Args) (argvOffset : Nat) : List (Option (List Byte)) :=
  (List.range' argvOffset (a.argc - argvOffset)).map fun i => (toCString E (a.slot i)).map cText

/-- A trailing argument that is reached before `passed_argv` overflows has no
C string. -/
def TrailingFails (a : Args) (argvOffset : Nat) : Prop :=
  ∃ i, argvOffset ≤ i ∧ i < a.argc ∧ i ≤ argvOffset + 256 ∧ toCString E (a.slot i) = none

def execReq (a : Args) (h : List Byte × Nat × Nat × Nat) : ExecReq :=
  { codeHash := h.1, hashType := h.2.1 % 2 ^ 8, offset := h.2.2.1, length := h.2.2.2
    argc := a.argc - 4, argv := trailing E a 4 }

def spawnReq (a : Args) (h : List Byte × Nat × Int × Int × Int × Int) : SpawnReq :=
  { codeHash := h.1, hashType := h.2.1 % 2 ^ 8
    offset := size h.2.2.2.2.1 % 2 ^ 32, length := size h.2.2.2.2.2 % 2 ^ 32
    argc := a.argc - 3, argv := trailing E a 3
    memoryLimit := size h.2.2.2.1, contentLength := size h.2.2.1 }

/-- When a call surfaces every failure: loads, `set_content` and `exit`
always; `debug` where its argument has a C string; `exec_cell`, once its head
is read, where there are at most 256 trailing arguments, all of them have one
and `ckb_exec_cell` does not return an error; `spawn_cell`, once its head is
read, where there are at most 256 trailing arguments and, if one of them has
no C string, the call fails later for another reason. -/
def SurfacesWhen (env : Env) (a : Args) (s : Vm) : Binding → Prop
  | .debug => (toCString env.engine (a.slot 0)).isSome
  | .execCell => ∀ h, execHead env.engine a = some h →
      a.argc ≤ 4 + 256 ∧ ¬TrailingFails env.engine a 4 ∧
        ∀ ret, env.kernel.exec s.clock (execReq env.engine a h) = some ret → ret = 0
  | .spawnCell => ∀ h, spawnHead env.engine a = some h →
      a.argc ≤ 3 + 256 ∧ (TrailingFails env.engine a 3 →
        env.malloc s.clock (size h.2.2.1) = false ∨
          (env.kernel.spawn (s.clock + 1) (spawnReq env.engine a h)).ret ≠ 0 ∨
          env.newObject (s.clock + 2) = false)
  | _ => True

/-! ## Partial loading -/

/-- A reply of a load: a length, or bytes. -/
inductive Reply where
  | number (n : Nat)
  | data (bs : List Byte)
  deriving DecidableEq, Repr

/-- The documented modes, by the explicit length and offset of a call. -/
def documented (item : List Byte) (length offset : Option Nat) : Reply :=
  let n := item.length
  let o := offset.getD 0
  match length with
  | none => .data item
  | some 0 => .number (n - o)
  | some L => .data ((item.take (min (o + L) n)).drop (min o n))

/-- The call ended with the reply: a Number, or an array buffer of the bytes. -/
def Delivers (r : Outcome × Vm) : Reply → Prop
  | .number n => ∃ v, r.1 = .returned (.value v) ∧ IsNumber v n
  | .data bs => ∃ block, r.1 = .returned (.arrayBuffer block bs.length) ∧
      (r.2.block block).take bs.length = bs

/-- What was stored from address 0 on ends below the program. -/
def Intact (env : Env) (s : Vm) : Prop := s.null.length ≤ env.base

/-- The call delivers the reply, and the program is as it was. -/
def Loads (env : Env) (r : Outcome × Vm) (reply : Reply) : Prop :=
  Intact env r.2 ∧ Delivers r reply

/-- Any Number: an integer or a double. -/
def NumberTag (v : JSValue) : Prop := (∃ i, v = .int i) ∨ ∃ d, v = .float64 d

/-- A Number that a load takes for the `size_t` x. -/
def IsSize (v : JSValue) (x : Nat) : Prop :=
  NumberTag v ∧ ∃ i, toInt64Free E v = some i ∧ (x : Int) = i % 2 ^ 64

/-- A call of a load with its index and source (and field) as Numbers, and
with the length and the offset absent or Numbers from 0 to 2⁵³. -/
structure NumberCall (hasField : Bool) (a : Args) (index source field : Nat)
    (length offset : Option Nat) : Prop where
  index : IsSize E (a.slot 0) index
  source : IsSize E (a.slot 1) source
  field : hasField = true → IsSize E (a.slot 2) field
  argc : varArg hasField ≤ a.argc
  length_none : length = none → a.argc = varArg hasField
  length_some : ∀ L, length = some L →
    varArg hasField < a.argc ∧ L ≤ 2 ^ 53 ∧ IsNumber (a.slot (varArg hasField)) L
  offset_none : offset = none → a.argc ≤ varArg hasField + 1
  offset_some : ∀ o, offset = some o →
    varArg hasField + 1 < a.argc ∧ o ≤ 2 ^ 53 ∧ IsNumber (a.slot (varArg hasField + 1)) o

/-- The item that a load with these arguments is documented to read. -/
def itemOf (index source field : Nat) : Binding → Option LoadReq
  | .loadTransaction => some .transaction
  | .loadScript => some .script
  | .loadCell => some (.cell index source)
  | .loadInput => some (.input index source)
  | .loadHeader => some (.header index source)
  | .loadWitness => some (.witness index source)
  | .loadCellData => some (.cellData index source)
  | .loadCellByField => some (.cellByField index source field)
  | .loadHeaderByField => some (.headerByField index source field)
  | .loadInputByField => some (.inputByField index source field)
  | _ => none

/-- The world during a load that finds the item: the kernel calls succeed,
and so do the allocations the load makes. -/
structure Finds (env : Env) (s : Vm) (req : LoadReq) (bufferSize : Nat) : Prop where
  lookup : ∀ t, s.clock ≤ t → t < s.clock + 4 → env.kernel.loadRet t req = 0
  malloc : ∀ t, s.clock ≤ t → t < s.clock + 4 → env.malloc t bufferSize = true
  newArrayBuffer : ∀ t, s.clock ≤ t → t < s.clock + 4 → env.newArrayBuffer t = true

/-- The loads built on `parse_args`: whether they take a field, and what they
load. -/
def loader : Binding → Option (Bool × LoadFunc)
  | .loadTransaction => some (false, .transaction)
  | .loadScript => some (false, .script)
  | .loadCell => some (false, .cell)
  | .loadInput => some (false, .input)
  | .loadHeader => some (false, .header)
  | .loadWitness => some (false, .witness)
  | .loadCellData => some (false, .cellData)
  | .loadCellByField => some (true, .cellByField)
  | .loadHeaderByField => some (true, .headerByField)
  | .loadInputByField => some (true, .inputByField)
  | _ => none

/-- The loads that take no arguments. -/
def hashLoader : Binding → Option LoadFunc
  | .loadTxHash => some .txHash
  | .loadScriptHash => some .scriptHash
  | _ => none

/-! ## Reading arguments -/

/-- Every slot that a call of the function reads is below the number of its arguments or the
length it is registered with. -/
def ReadsArguments (env : Env) (host : Host) (r : Registered) (a : Args) (s : Vm) : Prop :=
  ∀ i, Event.arg i ∈ (call (r.func env host) a { s with events := [] }).2.events →
    i < max a.argc r.arity

/-! ## Explicit arguments -/

/-- The argument is read and converts to `x`. -/
def Explicit (hasField : Bool) (a : Args) (p : Position) (x : Int) : Prop :=
  p.Read hasField a ∧ toInt64Free E (a.slot (p.slot hasField)) = some x

/-- The capacity and the offset of a kernel load. -/
def capAndOffset : Event → Option (Nat × Nat)
  | .load _ _ _ cap offset _ => some (cap, offset)
  | _ => none

/-- The load that fetches the data is the last one of a call. -/
def dataCall (events : List Event) : Option (Nat × Nat) := (events.filterMap capAndOffset).getLast?

/-- The call fails, or loads the data with the explicit length as capacity and at the
explicit offset. -/
def Honours (env : Env) (b : Binding) (hasField : Bool) (a : Args) (s : Vm) : Prop :=
  (run env b a s).1 = .returned .exception ∨
    ∃ cap offset, dataCall (run env b a s).2.events = some (cap, offset) ∧
      (∀ l, Explicit env.engine hasField a .length l → cap = size l) ∧
      ∀ o, Explicit env.engine hasField a .offset o → offset = size o

/-- How much of the item there is from the offset on. -/
def unread (env : Env) (d : LoadData) : Nat :=
  ((env.kernel.item d.request).drop (if d.offset = NO_VALUE then 0 else d.offset)).length

/-- Once its block is allocated at the moment `t`, a read of `length` bytes fails: the kernel
returns an error, or there is no array buffer, or its length is not that of one. -/
def ReadFails (env : Env) (t : Nat) (d : LoadData) (length : Nat) : Prop :=
  env.kernel.loadRet (t + 1) d.request ≠ 0 ∨ env.newArrayBuffer (t + 2) = false ∨
    2 ^ 31 ≤ min (unread env d) length % 2 ^ 32

/-- A load started at the moment `t` fails. -/
def LoadFails (env : Env) (t : Nat) (d : LoadData) : Prop :=
  if d.length = 0 then env.kernel.loadRet t d.request ≠ 0
  else if d.length = NO_VALUE then env.kernel.loadRet t d.request ≠ 0 ∨
    env.malloc (t + 1) (unread env d) = false ∨ ReadFails env (t + 1) d (unread env d)
  else env.malloc t d.length = false ∨ ReadFails env t d d.length

/-! ## Live blocks -/

def live (s : Vm) : List Nat := s.blocks.map Prod.fst

/-- The blocks that the array buffers inside a value own. -/
def owned : JSResult → List Nat
  | .arrayBuffer block _ => [block]
  | .spawned _ (some (block, _)) => [block]
  | _ => []

/-- The call returned, and the blocks that are live are those live before and those that belong
to the value. -/
def Released (before : List Nat) (o : Outcome) (s : Vm) : Prop :=
  ∃ v, o = .returned v ∧ live s = owned v ++ before

def Releases (env : Env) (b : Binding) (a : Args) (s : Vm) : Prop :=
  Released (live s) (run env b a s).1 (run env b a s).2

/-- A load started at the moment `t` allocates a block and fails. -/
def LoadLeaks (env : Env) (t : Nat) (d : LoadData) : Prop :=
  if d.length = 0 then False
  else if d.length = NO_VALUE then env.kernel.loadRet t d.request = 0 ∧
    env.malloc (t + 1) (unread env d) = true ∧ ReadFails env (t + 1) d (unread env d)
  else env.malloc t d.length = true ∧ ReadFails env t d d.length

/-- The bindings that allocate a block: loads, and `spawn_cell`. -/
def Allocates (b : Binding) : Prop := (loader b).isSome ∨ (hashLoader b).isSome ∨ b = .spawnCell

/-- When a call releases what it does not return: a load, where it does not fail after its
allocation; `spawn_cell`, where its head is not read, or where `passed_argv` does not overflow
and the allocation fails or nothing fails after it. -/
def ReleasesWhen (env : Env) (a : Args) (s : Vm) (b : Binding) : Prop :=
  (∀ hasField func d, loader b = some (hasField, func) →
    loadData env.engine hasField a func = some d → ¬LoadLeaks env s.clock d) ∧
  (∀ func, hashLoader b = some func → ¬LoadLeaks env s.clock (hashData func)) ∧
  (b = .spawnCell → ∀ h, spawnHead env.engine a = some h → a.argc ≤ 259 ∧
    (env.malloc s.clock (size h.2.2.1) = true →
      (env.kernel.spawn (s.clock + 1) (spawnReq env.engine a h)).ret = 0 ∧
      env.newObject (s.clock + 2) = true ∧ env.newArrayBuffer (s.clock + 3) = true ∧
      (env.kernel.spawn (s.clock + 1) (spawnReq env.engine a h)).contentLength < 2 ^ 31))

/-- A run of calls, each in the state the one before left. -/
def runAll (env : Env) : List (Binding × Args) → Vm → List Outcome × Vm
  | [], s => ([], s)
  | c :: cs, s =>
    let r := run env c.1 c.2 s
    let rest := runAll env cs r.2
    (r.1 :: rest.1, rest.2)

/-- In a run, every call returns, and the live blocks are those live before and those that belong
to the values. -/
def RunReleases (env : Env) (calls : List (Binding × Args)) (s : Vm) : Prop :=
  ∃ vs : List JSResult, (runAll env calls s).1 = vs.map .returned ∧
    live (runAll env calls s).2 = vs.reverse.flatMap owned ++ live s

/-- Every call of a run is made in a state that meets the condition. -/
def Meets (env : Env) (P : Binding → Args → Vm → Prop) : List (Binding × Args) → Vm → Prop
  | [], _ => True
  | c :: cs, s => P c.1 c.2 s ∧ Meets env P cs (run env c.1 c.2 s).2

/-! ## Arguments of another cell -/

/-- The index of the first argument that is passed on. -/
def argvOffset : Binding → Option Nat
  | .execCell => some 4
  | .spawnCell => some 3
  | _ => none

def requestOf : Event → Option ExecReq
  | .exec req _ => some req
  | .spawn req _ => some req.toExecReq
  | _ => none

def replacedBy : Outcome → List ExecReq
  | .replaced req => [req]
  | _ => []

/-- What a call issued: the request that replaced the process, or those in its log. -/
def issued (r : Outcome × Vm) : List ExecReq := replacedBy r.1 ++ r.2.events.filterMap requestOf

/-- A request with the number of the arguments from `k` on, and with their strings. -/
structure Passes (a : Args) (k : Nat) (req : ExecReq) : Prop where
  argc : req.argc = max ((a.argc : Int) - k) 0
  argv : ∀ i < a.argc - k, ∃ str, toCString E (a.slot (k + i)) = some str ∧ req.argv[i]? = some (some str)

/-- The call stays inside `passed_argv`, and raises without issuing a request or issues one with
the arguments from `k` on. -/
def Marshals (env : Env) (b : Binding) (k : Nat) (a : Args) (s : Vm) : Prop :=
  (run env b a s).1 ≠ .undefined ∧
    ((run env b a s).1 = .returned .exception ∧ issued (run env b a s) = [] ∨
      ∃ req, issued (run env b a s) = [req] ∧ Passes env.engine a k req)

/-- There are arguments up to `k`, and those from `k` on convert to strings without a NUL. -/
def Passable (a : Args) (k : Nat) : Prop :=
  k ≤ a.argc ∧ ∀ i, k ≤ i → i < a.argc → ∃ str, toCString E (a.slot i) = some str ∧ 0 ∉ str

/-- When a call that runs another cell marshals its arguments: where its head is not read, or
where there are at most 256 of them, and for `spawn_cell` the allocation fails or else they can
be passed. -/
def MarshalsWhen (env : Env) (a : Args) (s : Vm) (b : Binding) : Prop :=
  (b = .execCell → ∀ h, execHead env.engine a = some h →
    a.argc ≤ 4 + 256 ∧ Passable env.engine a 4) ∧
  (b = .spawnCell → ∀ h, spawnHead env.engine a = some h →
    a.argc ≤ 3 + 256 ∧ (env.malloc s.clock (size h.2.2.1) = true → Passable env.engine a 3))

/-! ## Views -/

/-- A typed array over `len` bytes from `off` on of an array buffer with the bytes `data`. -/
structure IsView (v : JSValue) (data : List Byte) (off len : Nat) : Prop where
  buffer : ∃ o b, v = .object o ∧ E.typedArray o = some ⟨b, off, len⟩ ∧ E.arrayBuffer b = some ⟨data, false⟩
  bound : off + len ≤ data.length

/-- The bytes that a view shows. -/
def viewed (data : List Byte) (off len : Nat) : List Byte := (data.drop off).take len

def contentOf : Event → Option (List Byte)
  | .setContent content _ => some content
  | _ => none

/-- `set_content` hands the kernel exactly `bytes`. -/
def HandsOver (env : Env) (a : Args) (s : Vm) (bytes : List Byte) : Prop :=
  (run env .setContent a s).2.events.filterMap contentOf = [bytes]

/-- The call goes on to its second argument exactly where there are 32 bytes, and runs the cell
with this code hash; it stays inside `passed_argv`. -/
def AcceptsHash (env : Env) (b : Binding) (a : Args) (s : Vm) (bytes : List Byte) : Prop :=
  (run env b a s).1 ≠ .undefined ∧
    (Event.arg 1 ∈ (run env b a s).2.events ↔ bytes.length = 32) ∧
    ∀ req ∈ issued (run env b a s), req.codeHash = bytes

/-- The head of the call is not read, or there are at most 256 arguments behind it. -/
def Fits (a : Args) (b : Binding) : Prop :=
  (b = .execCell → (execHead E a).isSome → a.argc ≤ 4 + 256) ∧
    (b = .spawnCell → (spawnHead E a).isSome → a.argc ≤ 3 + 256)

/-- A call whose first argument is a view takes the bytes of the view. -/
def HonoursView (env : Env) (b : Binding) (a : Args) (s : Vm) (bytes : List Byte) : Prop :=
  (b = .setContent → HandsOver env a s bytes) ∧
    (b = .execCell ∨ b = .spawnCell → AcceptsHash env b a s bytes)

/-! ## Exit statuses -/

/-- The kernel answers the spawn of a call with the exit code of a child. -/
def ChildExits (env : Env) (a : Args) (s : Vm) (code : Int) : Prop :=
  ∀ h, spawnHead env.engine a = some h →
    (env.kernel.spawn (s.clock + 1) (spawnReq env.engine a h)).exitCode = BitVec.ofInt 8 code

/-- Every integer that a child passes to `exit` ends it; and where a `spawn_cell` of the parent
succeeds, the `exit_code` of its result is a Number with the relation `P` to the integer. -/
def ExitSurvives (P : Int → Int → Prop) : Prop :=
  ∀ env a s status, IsNumber (a.slot 0) status → ∃ code, (run env .exit a s).1 = .exited code ∧
    ∀ env' a' s' v c, ChildExits env' a' s' code →
      (run env' .spawnCell a' s').1 = .returned (.spawned v c) → ∃ n, IsNumber v n ∧ P status n

/-- Success and failure are told apart, and a status in the range of an `int8_t` is unchanged. -/
def Unchanged (status n : Int) : Prop :=
  (n = 0 ↔ status = 0) ∧ (-128 ≤ status → status ≤ 127 → n = status)

/-- The status is 0 modulo 256 exactly where the exit code is 0, and unchanged from 0 to 127. -/
def UnchangedModulo (status n : Int) : Prop :=
  (n = 0 ↔ 256 ∣ status) ∧ (0 ≤ status → status ≤ 127 → n = status)

end CkbJs.Spec.CkbModule
