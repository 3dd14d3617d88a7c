import CkbJs.Impl.Bytecode.Value

/-!
# Export resolution

`js_resolve_export` of `quickjs.c`: which module and which of its export
entries a name exported by a module stands for, over the modules that are
loaded. A module is its index in `loaded_modules`. The result
`JS_RESOLVE_RES_EXCEPTION`, which every caller passes on, stops the program;
`grows n` is whether the array of the resolve state can have `n` entries.
-/

namespace CkbJs.Impl.Link

open CkbJs.Impl.Bytecode

/-- The atoms below are predefined (`quickjs-atom.h`); the second one is
`JS_ATOM__star_`. -/
def JS_ATOM_default : JSAtom := 22
def JS_ATOM_star : JSAtom := 125

/-- A `JSModuleDef` in `loaded_modules`: its entries, and the `module` of each
of its `req_module_entries`. -/
structure LoadedModule where
  entries : JSModuleDef
  required : List Nat

namespace LoadedModule

/-- `m->req_module_entries[idx].module`. -/
def request (d : LoadedModule) (idx : Int32) : Option Nat :=
  if 0 ≤ idx.toInt then d.required[idx.toInt.toNat]? else none

/-- `find_export_entry`. -/
def findExportEntry (d : LoadedModule) (exportName : JSAtom) : Option JSExportEntry :=
  d.entries.exportEntries.find? fun me => me.exportName = exportName

end LoadedModule

/-- `JSResolveResultEnum`, with the module and the entry that are found. -/
inductive Resolve where
  | found (m : Nat) (me : JSExportEntry)
  | notFound
  | circular
  | ambiguous
  deriving DecidableEq

inductive Stop where
  /-- `JS_RESOLVE_RES_EXCEPTION`. -/
  | exception
  /-- A module or a request that is not there is accessed. -/
  | fault
  /-- The nesting is not bounded by the fuel. -/
  | depth
  deriving DecidableEq

/-- The state is `JSResolveState`, the modules and names that have been
entered. -/
abbrev M := EStateM Stop (List (Nat × JSAtom))

/-- A pointer that is followed. -/
def deref {σ β : Type} (p : Option β) : EStateM Stop σ β :=
  match p with
  | some x => pure x
  | none => throw .fault

/-- `find_resolve_entry`. -/
def findResolveEntry (m : Nat) (name : JSAtom) : M Bool :=
  return (m, name) ∈ (← get)

/-- `add_resolve_entry`. -/
def addResolveEntry (grows : Nat → Bool) (m : Nat) (name : JSAtom) : M Unit := do
  let s ← get
  if grows (s.length + 1) then set (s ++ [(m, name)])
  else throw .exception

/-- The loop of `js_resolve_export1` over the star exports; `resolve` is the
function itself, and `found` is `*pmodule` and `*pme`. -/
def resolveStars (resolve : Nat → M Resolve) (d : LoadedModule) :
    List Int32 → Option (Nat × JSExportEntry) → M Resolve
  | [], none => return .notFound
  | [], some (m, me) => return .found m me
  | se :: stars, found => do
    let m1 ← deref (d.request se)
    match ← resolve m1 with
    | .ambiguous => return .ambiguous
    | .found resM resMe =>
      match found with
      | some (m, me) =>
        if m ≠ resM ∨ resMe.localName ≠ me.localName then return .ambiguous
        else resolveStars resolve d stars found
      | none => resolveStars resolve d stars (some (resM, resMe))
    | .notFound => resolveStars resolve d stars found
    | .circular => resolveStars resolve d stars found

/-- `js_resolve_export1`, nested at most `fuel` deep. -/
def resolveExport1 (grows : Nat → Bool) (mods : List LoadedModule) : Nat → Nat → JSAtom → M Resolve
  | 0, _, _ => throw .depth
  | fuel + 1, m, exportName => do
    if ← findResolveEntry m exportName then return .circular
    else
      addResolveEntry grows m exportName
      let d ← deref mods[m]?
      match d.findExportEntry exportName with
      | some me =>
        if me.exportType = JS_EXPORT_TYPE_LOCAL then return .found m me
        else
          let m1 ← deref (d.request me.idx)
          if me.localName = JS_ATOM_star then return .found m me
          else resolveExport1 grows mods fuel m1 me.localName
      | none =>
        if exportName = JS_ATOM_default then return .notFound
        else resolveStars (fun m1 => resolveExport1 grows mods fuel m1 exportName) d d.entries.starExportEntries none

/-- `js_resolve_export`. -/
def resolveExport (grows : Nat → Bool) (mods : List LoadedModule) (fuel m : Nat) (exportName : JSAtom) :
    EStateM.Result Stop (List (Nat × JSAtom)) Resolve :=
  (resolveExport1 grows mods fuel m exportName).run []

end CkbJs.Impl.Link
