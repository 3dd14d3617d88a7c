import CkbJs.Impl.Loader
import CkbJs.Spec.CellFs

/-!
# What the loader promises

`LooksUp` says which file in the mounted archives a module name selects, what the engine is
given of it, and where the loader stores. `JS_Eval` takes an input with a NUL behind it
(`Terminated`). The loader gives it the content of a file where it lies in its archive, so
that the NUL has to be there (`Followed`). `mountedFiles` are the files of the archives, apart
from where they are.
-/

namespace CkbJs.Spec.Loader

open CkbJs.Impl CkbJs.Impl.CellFs CkbJs.Impl.Loader CkbJs.Impl.Module CkbJs.Spec.CellFs

/-- `input[input_len]` is inside the buffer of the archive, and 0. -/
structure Terminated (a : Archive) (call : EvalCall) : Prop where
  inside : a.Contains call.input (call.inputLen + 1)
  zero : call.mem (call.input + call.inputLen) = 0

variable (mem : Mem)

/-- The file is given to the parser: it is not empty, and not bytecode. -/
def IsSource (a : Archive) (e : FSEntry) : Prop :=
  e.content.length ≠ 0 ∧ mem (contentAddr mem a.buf e) ≠ Module.BC_VERSION

/-- There is a NUL behind the file, if it is a source. -/
def Followed (a : Archive) (e : FSEntry) : Prop :=
  IsSource mem a e → Terminated a ⟨mem, contentAddr mem a.buf e, e.content.length⟩

/-- Every file of the archive that can be looked up and is a source has a NUL behind it. -/
def AllFollowed (a : Archive) : Prop := ∀ name e, a.First mem name e → Followed mem a e

/-- Whatever archives of a set have been mounted, the loader gives the parser inputs that end
with a NUL in one of them. -/
def LoadsTerminated (S : Archive → Prop) : Prop :=
  ∀ alloc cs, (∀ a, .loadFs a ∈ cs → S a) → ∀ name call,
    (jsModuleLoader mem alloc name (Session.init.run mem alloc cs).fs).1 = .eval call →
      ∃ a ∈ (Session.init.run mem alloc cs).mounted, Terminated a call

/-! ## Looking a name up -/

/-- The mounted archives have a file of the name that is not empty, and its content is these
bytes of memory. -/
def Stored (mounted : List Archive) (name : CString) (buf bufLen : Nat) : Prop :=
  ∃ a e, Topmost mem mounted name a e ∧ buf = contentAddr mem a.buf e ∧ bufLen = e.content.length ∧
    bufLen ≠ 0

/-- The second name is the first with the suffix `.js`, behind at least one character, replaced
by `.bc`. -/
def Replaces (name second : CString) : Prop :=
  ∃ stem, stem ≠ [] ∧ name.1 = stem ++ [46, 106, 115] ∧ second.1 = stem ++ [46, 98, 99]

/-- The engine is given the bytes: to read, where they start with `BC_VERSION`, or to compile. -/
def Takes (l : Loading) (buf bufLen : Nat) : Prop :=
  if mem buf = 2 then l = .readObject buf bufLen else l = .eval ⟨mem, buf, bufLen⟩

variable (alloc : Alloc)

/-- `js_module_loader` takes the file of the name, or else that of the second name, or else throws
a ReferenceError; and what it stores in `secend_name` is inside of it. -/
structure LooksUp (s : Session) (name : CString) : Prop where
  first : ∀ buf bufLen, Stored mem s.mounted name buf bufLen →
    Takes mem (jsModuleLoader mem alloc name s.fs).1 buf bufLen
  second : (∀ buf bufLen, ¬Stored mem s.mounted name buf bufLen) →
    ∀ other, Replaces name other → ∀ buf bufLen, Stored mem s.mounted other buf bufLen →
      Takes mem (jsModuleLoader mem alloc name s.fs).1 buf bufLen
  throws : (∀ buf bufLen, ¬Stored mem s.mounted name buf bufLen) →
    (∀ other, Replaces name other → ∀ buf bufLen, ¬Stored mem s.mounted other buf bufLen) →
      (jsModuleLoader mem alloc name s.fs).1 = .referenceError name
  stores : ∀ i ∈ (jsModuleLoader mem alloc name s.fs).2.1, i < 256

/-- When a lookup is right. Where the file of the name is there, `get_file` has memory for its
result, or else the file of the second name is these very bytes and can be had. Where it is
not there, a second name fits into `secend_name`, and `get_file` has memory for its file. -/
structure LooksUpWhen (s : Session) (name : CString) : Prop where
  first : ∀ buf bufLen, Stored mem s.mounted name buf bufLen → alloc s.fs.clock sizeofFSFile = true ∨
    ∃ other, Replaces name other ∧ name.1.length < 256 ∧ Stored mem s.mounted other buf bufLen ∧
      alloc (s.fs.clock + 1) sizeofFSFile = true
  second : (∀ buf bufLen, ¬Stored mem s.mounted name buf bufLen) → ∀ other, Replaces name other →
    name.1.length < 256 ∧ ∀ buf bufLen, Stored mem s.mounted other buf bufLen →
      alloc (s.fs.clock + 1) sizeofFSFile = true

/-! ## The files -/

/-- The files of the mounted archives, by their contents. -/
def mountedFiles (mounts : List Mount) : Files := fun name =>
  (findFile mem name 0 mounts).2.map fun found =>
    mem.bytes (found.2.1 + found.2.2.content.offset) found.2.2.content.length

/-- What `js_module_loader` does with what its lookups come to: the call of the engine, and what
follows. -/
def goOn (engine : Module.Engine) (resolve : Nat → M Unit) (moduleName file : CString) : Loading → M Nat
  | .readObject buf bufLen =>
    match engine.readObject (mem.bytes buf bufLen) with
    | .exception => throw .exception
    | .value => throw .notModule
    | .module recorded requests => newModuleDef recorded file requests
  | .eval call =>
    match engine.parse (call.mem.bytes call.input call.inputLen) with
    | none => throw .exception
    | some requests => newModuleDef moduleName file requests >>= fun m => resolve m >>= fun _ => pure m
  | .referenceError _ => throw .referenceError
  | .overflow => throw .overflow

end CkbJs.Spec.Loader
