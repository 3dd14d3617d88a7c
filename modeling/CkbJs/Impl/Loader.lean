import CkbJs.Impl.CellFs
import CkbJs.Impl.Module

/-!
# The module loader and the memory

`js_load_file` and `js_module_loader` of `quickjs/std_module.c` on the mounted archives, up
to the call of the engine. The rest of `js_module_loader` is in `Module.moduleLoader`, for the
files as they are where every allocation succeeds.
-/

namespace CkbJs.Impl.Loader

open CkbJs.Impl.CellFs CkbJs.Impl.Module

/-- A call of `JS_Eval`: the memory at the time, and its `input` and `input_len`. -/
structure EvalCall where
  mem : Mem
  input : Nat
  inputLen : Nat

/-- What becomes of a module name. -/
inductive Loading where
  | readObject (buf bufLen : Nat)
  | eval (call : EvalCall)
  /-- `JS_ThrowReferenceError`: `could not load module filename '%s'`. -/
  | referenceError (moduleName : CString)
  /-- A store outside `secend_name`: what happens next is not defined. -/
  | overflow

/-- `strcpy` into a local array: the indices at which it stores a byte. -/
def strcpy (dest : Nat) (src : List Byte) : List Nat := List.range' dest (src.length + 1)

variable (mem : Mem) (alloc : Alloc)

/-- `js_load_file`: the address of the content, and `*pbuf_len`. -/
def jsLoadFile (filename : CString) (s : Fs) : Option (Nat × Nat) × Fs :=
  match getFile mem alloc filename s with
  | ((0, some f), s) => if f.size = 0 then (none, s) else (some (f.content, f.size), s)
  | (_, s) => (none, s)

/-- The call of the engine: of the bytecode reader, or of the parser. -/
def compile (buf bufLen : Nat) : Loading :=
  if mem buf = Module.BC_VERSION then .readObject buf bufLen else .eval ⟨mem, buf, bufLen⟩

/-- `js_module_loader`, with the indices of `secend_name` at which it stores. -/
def jsModuleLoader (moduleName : CString) (s : Fs) : Loading × List Nat × Fs :=
  match jsLoadFile mem alloc moduleName s with
  | (some (buf, bufLen), s) => (compile mem buf bufLen, [], s)
  | (none, s) =>
    if moduleName.1.length ≤ 3 then (.referenceError moduleName, [], s)
    else if moduleName.1.drop (moduleName.1.length - 3) ≠ extJs then (.referenceError moduleName, [], s)
    else
      let stores := strcpy 0 moduleName.1 ++ strcpy (moduleName.1.length - 3) extBc
      if ∃ i ∈ stores, secendNameSize ≤ i then (.overflow, stores, s)
      else match jsLoadFile mem alloc (secondName moduleName) s with
        | (some (buf, bufLen), s) => (compile mem buf bufLen, stores, s)
        | (none, s) => (.referenceError moduleName, stores, s)

end CkbJs.Impl.Loader
