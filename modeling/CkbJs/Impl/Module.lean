import CkbJs.Framework.Path
import CkbJs.Impl.CellFs

/-!
# Module loading

The part of `quickjs.c` that resolves the requests of a module
(`js_default_module_normalize_name`, `js_host_resolve_imported_module`,
`js_resolve_module`), the loader of `quickjs/std_module.c`, and what
`run_from_file_system_buf` and `eval_buf` do up to the point where all modules
are loaded. The parser and the bytecode reader are a parameter, and so are the
files of the mounted file system; `Impl.Loader` has the lookups of
`js_module_loader` on the archives in memory.

A module that cannot be loaded ends the run, so the definitions that
`js_free_module_def` then frees are left in place.
-/

namespace CkbJs.Impl.Module

/-! ## `js_default_module_normalize_name` -/

/-- `strrchr` of a slash: what is before it, and what is after it. -/
def splitLast (s : List Byte) : Option (List Byte × List Byte) :=
  match s with
  | [] => none
  | c :: cs =>
    match splitLast cs with
    | some (before, after) => some (c :: before, after)
    | none => if c = slash then some ([], cs) else none

/-- Removes the last path element, except if `.` or `..`. -/
def removeLast (filename : List Byte) : Option (List Byte) :=
  if filename = [] then none
  else
    let (before, p) := (splitLast filename).getD ([], filename)
    if p = [dot] ∨ p = [dot, dot] then none else some before

/-- The loop over the leading `..` and `.`: the new `filename` and `r`. -/
def normalizeLeading (filename : List Byte) : List Byte → List Byte × List Byte
  | a :: b :: r =>
    if a = dot ∧ b = slash then normalizeLeading filename r
    else match r with
      | c :: r =>
        if a = dot ∧ b = dot ∧ c = slash then
          match removeLast filename with
          | some filename => normalizeLeading filename r
          | none => (filename, a :: b :: c :: r)
        else (filename, a :: b :: c :: r)
      | [] => (filename, [a, b])
  | r => (filename, r)

/-- The base name up to its last slash. -/
def dirName (baseName : List Byte) : List Byte :=
  match splitLast baseName with
  | some (dir, _) => dir
  | none => []

/-- `js_default_module_normalize_name`, on bytes. -/
def normalizeBytes (baseName name : List Byte) : List Byte :=
  if name.head? ≠ some dot then name
  else
    let (filename, r) := normalizeLeading (dirName baseName) name
    if filename = [] then r else filename ++ slash :: r

theorem eq_of_splitLast {s before after : List Byte} (h : splitLast s = some (before, after)) :
    s = before ++ slash :: after := by
  induction s generalizing before with
  | nil => nomatch h
  | cons c cs ih =>
    unfold splitLast at h
    split at h
    · rename_i hs
      cases h
      rw [ih hs]
      rfl
    · split at h
      · rename_i hc
        cases h
        rw [hc]
        rfl
      · nomatch h

theorem mem_of_removeLast {filename before : List Byte} (h : removeLast filename = some before) {c : Byte}
    (hc : c ∈ before) : c ∈ filename := by
  unfold removeLast at h
  split at h
  · nomatch h
  · cases hs : splitLast filename with
    | none =>
      simp only [hs, Option.getD_none] at h
      split at h
      · nomatch h
      · cases h
        nomatch hc
    | some p =>
      simp only [hs, Option.getD_some] at h
      split at h
      · nomatch h
      · cases h
        rw [eq_of_splitLast hs]
        exact List.mem_append_left _ hc

theorem normalizeLeading_stay (filename r : List Byte) :
    normalizeLeading filename (dot :: slash :: r) = normalizeLeading filename r := by
  rw [normalizeLeading.eq_def]
  simp only [and_self, if_true]

/-- The loop ends, goes on behind a `./`, or behind a `../`. -/
theorem normalizeLeading_step (filename r : List Byte) :
    normalizeLeading filename r = (filename, r) ∨ (∃ r', r = dot :: slash :: r') ∨
    ∃ r' filename', r = dot :: dot :: slash :: r' ∧ removeLast filename = some filename' ∧
      normalizeLeading filename r = normalizeLeading filename' r' := by
  rcases r with _ | ⟨a, _ | ⟨b, r⟩⟩
  · exact .inl rfl
  · exact .inl rfl
  by_cases hab : a = dot ∧ b = slash
  · exact .inr (.inl ⟨r, by rw [hab.1, hab.2]⟩)
  rcases r with _ | ⟨c, r⟩
  · left
    simp only [normalizeLeading, if_neg hab]
  by_cases habc : a = dot ∧ b = dot ∧ c = slash
  · cases hr : removeLast filename with
    | none =>
      left
      simp only [normalizeLeading, if_neg hab, if_pos habc, hr]
    | some filename' =>
      refine .inr (.inr ⟨r, filename', by rw [habc.1, habc.2.1, habc.2.2], rfl, ?_⟩)
      simp only [normalizeLeading, if_neg hab, if_pos habc, hr]
  · left
    simp only [normalizeLeading, if_neg hab, if_neg habc]

theorem mem_of_normalizeLeading {filename r : List Byte} {c : Byte}
    (h : c ∈ (normalizeLeading filename r).1 ∨ c ∈ (normalizeLeading filename r).2) :
    c ∈ filename ∨ c ∈ r := by
  induction hn : r.length using Nat.strong_induction_on generalizing filename r with
  | _ n ih =>
    subst hn
    obtain heq | ⟨r', rfl⟩ | ⟨r', filename', rfl, hr, heq⟩ := normalizeLeading_step filename r
    · rw [heq] at h
      exact h
    · rw [normalizeLeading_stay] at h
      exact (ih r'.length (Nat.lt_succ_of_lt (Nat.lt_succ_self _)) h rfl).imp_right fun h =>
        List.mem_cons_of_mem _ (List.mem_cons_of_mem _ h)
    · rw [heq] at h
      have hlt : r'.length < (dot :: dot :: slash :: r').length :=
        Nat.lt_succ_of_lt (Nat.lt_succ_of_lt (Nat.lt_succ_self _))
      rcases ih r'.length hlt h rfl with h | h
      · exact .inl (mem_of_removeLast hr h)
      · exact .inr (List.mem_cons_of_mem _ (List.mem_cons_of_mem _ (List.mem_cons_of_mem _ h)))

theorem mem_of_dirName {baseName : List Byte} {c : Byte} (h : c ∈ dirName baseName) : c ∈ baseName := by
  unfold dirName at h
  split at h
  · rename_i hs
    rw [eq_of_splitLast hs]
    exact List.mem_append_left _ h
  · nomatch h

/-- The result is made of characters of the names, and the slash. -/
theorem zero_notMem_normalizeBytes {baseName name : List Byte} (hb : 0 ∉ baseName) (hn : 0 ∉ name) :
    0 ∉ normalizeBytes baseName name := by
  have hlead (h : 0 ∈ (normalizeLeading (dirName baseName) name).1 ∨
      0 ∈ (normalizeLeading (dirName baseName) name).2) : False :=
    (mem_of_normalizeLeading h).elim (fun h => hb (mem_of_dirName h)) hn
  unfold normalizeBytes
  split
  · exact hn
  · dsimp only
    split
    · exact fun h => hlead (.inr h)
    · intro h
      rcases List.mem_append.mp h with h | h
      · exact hlead (.inl h)
      · rcases List.mem_cons.mp h with h | h
        · exact absurd h (by decide)
        · exact hlead (.inr h)

/-- `js_default_module_normalize_name`. -/
def normalizeName (baseName name : CString) : CString :=
  ⟨normalizeBytes baseName.1 name.1, zero_notMem_normalizeBytes baseName.2 name.2⟩

/-! ## The files -/

/-- The files of the mounted file system, as `ckb_get_file` gives them where
there is memory for its result. -/
abbrev Files := CString → Option (List Byte)

/-- `js_load_file`. -/
def loadFile (files : Files) (filename : CString) : Option (List Byte) :=
  match files filename with
  | none => none
  | some f => if f.length = 0 then none else some f

def extJs : List Byte := [46, 106, 115]
def extBc : List Byte := [46, 98, 99]

/-- The name with its last three characters replaced by `.bc`. -/
def secondName (name : CString) : CString :=
  ⟨name.1.take (name.1.length - 3) ++ extBc, fun h =>
    (List.mem_append.mp h).elim (fun h => name.2 (List.mem_of_mem_take h)) (by decide)⟩

def secendNameSize : Nat := 256

/-- What `js_module_loader` finds for a module name. -/
inductive Lookup where
  | found (file : CString) (content : List Byte)
  /-- `could not load module filename`. -/
  | missing
  /-- The name does not fit into `secend_name`. -/
  | overflow

/-- The first half of `js_module_loader`. -/
def locate (files : Files) (name : CString) : Lookup :=
  match loadFile files name with
  | some content => .found name content
  | none =>
    if name.1.length ≤ 3 then .missing
    else if name.1.drop (name.1.length - 3) ≠ extJs then .missing
    else if secendNameSize < name.1.length + 1 then .overflow
    else match loadFile files (secondName name) with
      | some content => .found (secondName name) content
      | none => .missing

/-! ## The loaded modules -/

def BC_VERSION : Byte := 2

/-- What `JS_ReadObject` gives: only a module has requests. -/
inductive ReadObject where
  | exception
  | value
  | module (name : CString) (requests : List CString)

structure Engine where
  /-- The requests of a module source, if it can be compiled. -/
  parse : List Byte → Option (List CString)
  readObject : List Byte → ReadObject
  /-- `JS_WriteObject` of the module that a source is compiled to under a name. -/
  writeObject : CString → List Byte → List Byte
  parse_nil : parse [] = some []
  head_writeObject : ∀ name source, (writeObject name source).head? = some BC_VERSION
  readObject_writeObject : ∀ name source requests, parse source = some requests →
    readObject (writeObject name source) = .module name requests

/-- A `JSModuleDef`, with the file it was read from. -/
structure ModuleDef where
  name : CString
  file : CString
  requests : List CString
  resolved : Bool
  deriving DecidableEq

/-- What a specifier of a module resolves to (`rme->module`, by its file). -/
inductive Resolution where
  | loaded (file : CString)
  | found (file : CString)
  | missing
  | overflow
  deriving DecidableEq

/-- An import: the importing module by its file, the specifier, and what it
resolves to. -/
structure Import where
  importer : CString
  specifier : CString
  resolution : Resolution
  deriving DecidableEq

structure Loader where
  /-- `loaded_modules`. -/
  modules : List ModuleDef
  /-- The imports that have been resolved. -/
  imports : List Import

inductive Stop where
  /-- A module cannot be read or compiled, or there is no entry file. -/
  | exception
  /-- `JS_ThrowReferenceError`: `could not load module filename '%s'`. -/
  | referenceError
  | overflow
  /-- `js_module_loader` takes a value that is not a module for one. -/
  | notModule
  /-- The nesting of `js_resolve_module` is not bounded by the fuel. -/
  | depth
  deriving DecidableEq

abbrev M := EStateM Stop Loader

def log (i : Import) : M Unit := modify fun s => { s with imports := s.imports ++ [i] }

/-- `js_new_module_def`. -/
def newModuleDef (name file : CString) (requests : List CString) : M Nat := modifyGet fun s =>
  (s.modules.length, { s with modules := s.modules ++ [⟨name, file, requests, false⟩] })

/-- `js_find_loaded_module`. -/
def findLoadedModule (modules : List ModuleDef) (name : CString) : Option Nat :=
  modules.findIdx? fun m => m.name = name

variable (engine : Engine) (files : Files)

/-- `js_module_loader`; `resolve` is `js_resolve_module`, to which `JS_Eval`
hands a module that it has compiled. -/
def moduleLoader (resolve : Nat → M Unit) (importer specifier name : CString) : M Nat := do
  match locate files name with
  | .missing =>
    log ⟨importer, specifier, .missing⟩
    throw .referenceError
  | .overflow =>
    log ⟨importer, specifier, .overflow⟩
    throw .overflow
  | .found file content =>
    log ⟨importer, specifier, .found file⟩
    if content.head? = some BC_VERSION then
      match engine.readObject content with
      | .exception => throw .exception
      | .value => throw .notModule
      | .module recorded requests => newModuleDef recorded file requests
    else
      match engine.parse content with
      | none => throw .exception
      | some requests =>
        let m ← newModuleDef name file requests
        resolve m
        return m

/-- `js_host_resolve_imported_module`. -/
def hostResolveImportedModule (resolve : Nat → M Unit) (base : ModuleDef) (specifier : CString) :
    M Nat := do
  let name := normalizeName base.name specifier
  let s ← get
  match findLoadedModule s.modules name with
  | some m =>
    let file := match s.modules[m]? with
      | some d => d.file
      | none => name -- not reached
    log ⟨base.file, specifier, .loaded file⟩
    return m
  | none => moduleLoader engine files resolve base.file specifier name

/-- The loop of `js_resolve_module` over the requests. -/
def resolveRequests (resolve : Nat → M Unit) (base : ModuleDef) : List CString → M Unit
  | [] => pure ()
  | specifier :: specifiers => do
    let m ← hostResolveImportedModule engine files resolve base specifier
    resolve m
    resolveRequests resolve base specifiers

/-- `js_resolve_module`, nested at most `fuel` deep. -/
def resolveModule : Nat → Nat → M Unit
  | 0, _ => throw .depth
  | fuel + 1, m => do
    let s ← get
    match s.modules[m]? with
    | none => pure () -- not reached
    | some d =>
      if d.resolved then pure ()
      else
        set { s with modules := s.modules.set m { d with resolved := true } }
        resolveRequests engine files (resolveModule fuel) d d.requests

/-- The file that `run_from_file_system_buf` evaluates. -/
def entry : Option (CString × List Byte) :=
  match files mainFileName with
  | some content => some (mainFileName, content)
  | none =>
    match files mainFileNameBc with
    | some content => some (mainFileNameBc, content)
    | none => none

/-- `eval_buf` of the entry file, until its modules are loaded. -/
def loadEntry (fuel : Nat) : M Unit := do
  match entry files with
  | none => throw .exception
  | some (file, content) =>
    if content.length = 0 then throw .exception
    else if content.head? = some BC_VERSION then
      match engine.readObject content with
      | .exception => throw .exception
      | .value => pure ()
      | .module recorded requests =>
        let m ← newModuleDef recorded file requests
        resolveModule engine files fuel m
    else
      match engine.parse content with
      | none => throw .exception
      | some requests =>
        let m ← newModuleDef mainFileName file requests
        resolveModule engine files fuel m

/-- Loading an entry file and all it imports. -/
def load (fuel : Nat) : EStateM.Result Stop Loader Unit :=
  (loadEntry engine files fuel).run ⟨[], []⟩

/-- `compile_from_file`, which gives the module no name. -/
def compileFromFile (source : List Byte) : List Byte := engine.writeObject .empty source

end CkbJs.Impl.Module
