import CkbJs.Impl.CkbModule

/-!
# The helpers of scripts

The functions that `js_std_add_helpers` of `quickjs/std_module.c` registers, and those
that `js_init_module_ckb` registers and that take no arguments. A `Host` answers what they
ask for. `Registered` is the list of all functions that are registered.
-/

namespace CkbJs.Impl.CkbModule

structure Host where
  /-- `JS_ToBool`. -/
  toBool : JSValue → Bool
  /-- `printf("%f", d)`. -/
  printf : Float64 → List Byte
  vmVersion : BitVec 32
  currentCycles : Nat → BitVec 64
  memoryLimit : Nat → BitVec 32
  currentMemory : Nat → BitVec 32

variable (env : Env) (host : Host)

/-- The loop of `js_print` over the slots `is`. -/
def printSlots (a : Args) : List Nat → M JSResult
  | [] => return .value .undefined
  | i :: is => do
    match ← a.get i with
    | .float64 d =>
      log (.debug (some (host.printf d)))
      printSlots a is
    | v =>
      match ← cString env v with
      | none => return .exception
      | some str =>
        log (.debug (some str))
        printSlots a is

def jsPrint (a : Args) : M JSResult := printSlots env host a (List.range a.argc)

def jsAssert (a : Args) : M JSResult := do
  let success := host.toBool (← a.get 0)
  if !success then
    let _ ← printSlots env host a (List.range' 1 (a.argc - 1))
    return .exception
  return .value .undefined

def syscallVmVersion (_ : Args) : M JSResult := return .value (.int host.vmVersion)

def syscallCurrentCycles (_ : Args) : M JSResult := do
  let cycles := host.currentCycles (← tick)
  return .value (newInt64 cycles.toInt)

def syscallGetMemoryLimit (_ : Args) : M JSResult := do
  let memoryLimit := host.memoryLimit (← tick)
  return .value (newUint32 memoryLimit.toNat)

def syscallCurrentMemory (_ : Args) : M JSResult := do
  let size := host.currentMemory (← tick)
  return .value (newUint32 size.toNat)

inductive Registered where
  | ckb (b : Binding)
  | vmVersion
  | currentCycles
  | getMemoryLimit
  | currentMemory
  /-- `console.log` -/
  | consoleLog
  /-- `console.assert` -/
  | consoleAssert
  | print
  deriving DecidableEq, Repr

def Registered.func : Registered → Args → M JSResult
  | .ckb b => b.func env
  | .vmVersion => syscallVmVersion host
  | .currentCycles => syscallCurrentCycles host
  | .getMemoryLimit => syscallGetMemoryLimit host
  | .currentMemory => syscallCurrentMemory host
  | .consoleLog => jsPrint env host
  | .consoleAssert => jsAssert env host
  | .print => jsPrint env host

/-- The length each function is registered with. -/
def Registered.arity : Registered → Nat
  | .ckb b => b.arity
  | .vmVersion | .currentCycles | .getMemoryLimit | .currentMemory => 0
  | .consoleLog | .consoleAssert | .print => 1

end CkbJs.Impl.CkbModule
