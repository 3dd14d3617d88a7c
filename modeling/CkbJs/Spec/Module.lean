import CkbJs.Framework.Runs
import CkbJs.Impl.Module

/-!
# What a bytecode package promises

A `Package` is a finite set of modules, each a name and a source. It gives two
file systems, `js` with the sources and `bc` with what `compile_from_file`
makes of them. `SameGraph` says that both load the same modules. An import is
`Plain` where the bytecode package can follow it: nothing has loaded its module
yet, and its specifier means the same from the root.

`wanted` is the file that a module name stands for, `SameEntry` says that the entry file is
selected in the same way, and `ReturnsModules` what the loader makes of a file.
-/

namespace CkbJs.Spec.Module

open CkbJs.Impl CkbJs.Impl.Module

/-- The file of a module, with an extension that has no NUL. -/
def withExt (stem : CString) (ext : List Byte) (h : 0 ∉ ext) : CString :=
  ⟨stem.1 ++ ext, fun hz => (List.mem_append.mp hz).elim stem.2 h⟩

def jsFile (stem : CString) : CString := withExt stem extJs (by decide)
def bcFile (stem : CString) : CString := withExt stem extBc (by decide)

/-- Modules, by their names without extension and their sources: sources that
can be compiled, and that are not taken for bytecode. A name that is given
twice stands for the first of its modules. -/
structure Package (engine : Module.Engine) where
  modules : List (CString × List Byte)
  compiles : ∀ m ∈ modules, ∃ requests, engine.parse m.2 = some requests
  isSource : ∀ m ∈ modules, m.2.head? ≠ some BC_VERSION

namespace Package

variable {engine : Module.Engine} (p : Package engine)

/-- The file system of the sources. -/
def js : Files := fun file => (p.modules.find? fun m => jsFile m.1 = file).map Prod.snd

/-- The file system of the bytecode. -/
def bc : Files := fun file =>
  (p.modules.find? fun m => bcFile m.1 = file).map fun m => compileFromFile engine m.2

end Package

/-- The name of a file, without its extension. -/
def stem (file : CString) : List Byte := file.1.take (file.1.length - 3)

/-- What an import finds, whatever the kind of its file. -/
inductive Target where
  | module (stem : List Byte)
  | missing
  | overflow
  deriving DecidableEq

def target : Resolution → Target
  | .loaded file => .module (stem file)
  | .found file => .module (stem file)
  | .missing => .missing
  | .overflow => .overflow

def located : Lookup → Target
  | .found file _ => .module (stem file)
  | .missing => .missing
  | .overflow => .overflow

/-- The importing module, the specifier, and the module it resolves to. -/
def edge (i : Import) : List Byte × CString × Target := (stem i.importer, i.specifier, target i.resolution)

/-- Loading ends, if need be with an exception. -/
def Ends (r : EStateM.Result Stop Loader Unit) : Prop := ∀ s, r ≠ .error .depth s

/-- The files that loading makes modules of, one for each instance. -/
def instances (r : EStateM.Result Stop Loader Unit) : List CString :=
  (final r).modules.map ModuleDef.file

variable (engine : Module.Engine)

/-- Loading `Q` ends if loading `P` does, every import of a module resolves to
the same module, and no module is instantiated twice. -/
structure SameGraph (P Q : Files) : Prop where
  ends : (∃ fuel, Ends (load engine P fuel)) → ∃ fuel, Ends (load engine Q fuel)
  resolves : ∀ m n, Ends (load engine P m) → Ends (load engine Q n) → ∀ e,
    e ∈ (final (load engine P m)).imports.map edge ↔ e ∈ (final (load engine Q n)).imports.map edge
  onceP : ∀ fuel, Ends (load engine P fuel) → (instances (load engine P fuel)).Nodup
  onceQ : ∀ fuel, Ends (load engine Q fuel) → (instances (load engine Q fuel)).Nodup

/-- The name that a specifier stands for in a module without a name. -/
def fromRoot (specifier : CString) : CString := normalizeName .empty specifier

/-- An import of a module that is not loaded yet, under a name that finds the
same module from the root. -/
structure Plain (bc : Files) (i : Import) : Prop where
  fresh : ∀ file, i.resolution ≠ .loaded file
  named : fromRoot i.specifier ≠ .empty
  same : located (locate bc (fromRoot i.specifier)) = target i.resolution

/-! ## Looking a file up -/

/-- The file is there, and it is not empty. -/
def present (files : Files) (file : CString) : Option (CString × List Byte) :=
  ((files file).filter fun content => content ≠ []).map fun content => (file, content)

/-- The name has something in front of its `.js`. -/
def EndsInJs (name : CString) : Prop := 3 < name.1.length ∧ extJs <:+ name.1

instance (name : CString) : Decidable (EndsInJs name) := inferInstanceAs (Decidable (_ ∧ _))

/-- The file that a module name stands for. -/
def wanted (files : Files) (name : CString) : Option (CString × List Byte) :=
  (present files name).or (if EndsInJs name then present files (secondName name) else none)

/-- The file that `run_from_file_system_buf` evaluates. -/
def entryFile (files : Files) : Option (CString × List Byte) :=
  (entry files).filter fun e => e.2.length ≠ 0

/-- The file that the loader takes for a name. -/
def loaded (files : Files) (name : CString) : Option (CString × List Byte) :=
  match locate files name with
  | .found file content => some (file, content)
  | .missing => none
  | .overflow => none

/-- What `run_from_file_system_buf` does with its entry file. -/
def evalEntry (files : Files) (fuel : Nat) : Option (CString × List Byte) → M Unit
  | none => throw .exception
  | some (file, content) =>
    if content.head? = some BC_VERSION then
      match engine.readObject content with
      | .exception => throw .exception
      | .value => pure ()
      | .module recorded requests =>
        newModuleDef recorded file requests >>= fun m => resolveModule engine files fuel m
    else
      match engine.parse content with
      | none => throw .exception
      | some requests =>
        newModuleDef mainFileName file requests >>= fun m => resolveModule engine files fuel m

/-- The entry file is the one that an import of `main.js` would load, and it is what is evaluated. -/
structure SameEntry (files : Files) : Prop where
  selects : entryFile files = loaded files mainFileName
  evaluates : ∀ engine fuel,
    loadEntry engine files fuel = evalEntry engine files fuel (loaded files mainFileName)

/-- An exception is pending. -/
def Raised (e : Stop) : Prop := e = .exception ∨ e = .referenceError

/-- What `JS_Eval` does with the imports of a module it has compiled: it keeps the modules
that are loaded, or it throws. -/
def Resolves (resolve : Nat → M Unit) : Prop :=
  ∀ m s, WP (resolve m) s (fun _ s' => s.modules.length ≤ s'.modules.length) (fun e _ => Raised e)

/-- `js_module_loader` returns a module that is loaded, or throws. -/
def ReturnsModules (files : Files) (name : CString) : Prop :=
  ∀ resolve, Resolves resolve → ∀ importer specifier s,
    WP (moduleLoader engine files resolve importer specifier name) s
      (fun m s' => m < s'.modules.length) (fun e _ => Raised e)

end CkbJs.Spec.Module
