import CkbJs.Impl.ArraySort
import CkbJs.Impl.Link

/-!
# Module namespaces

`js_build_module_ns` of `quickjs.c`: the names that a module exports, each of
them resolved, and sorted by their texts. `text` is `JS_AtomToString`. The
properties of the object are what is modelled of it. Memory does not run out.
-/

namespace CkbJs.Impl.Namespace

open CkbJs.Impl.Bytecode CkbJs.Impl.Link

/-- `ExportedNameEntry` while the list is built; `me` is `u.me`. -/
structure ExportedNameEntry where
  exportName : JSAtom
  me : Option JSExportEntry

structure GetExportNamesState where
  modules : List Nat
  exportedNames : List ExportedNameEntry

abbrev NamesM := EStateM Link.Stop GetExportNamesState

/-- `find_exported_name`. -/
def findExportedName (names : List ExportedNameEntry) (name : JSAtom) : Option Nat :=
  names.findIdx? fun en => en.exportName = name

/-- The loop of `get_exported_names` over the export entries: one of them. -/
def addExportedName (fromStar : Bool) (names : List ExportedNameEntry) (me : JSExportEntry) :
    List ExportedNameEntry :=
  if fromStar ∧ me.exportName = JS_ATOM_default then names
  else
    match findExportedName names me.exportName with
    | none => names ++ [⟨me.exportName, if fromStar ∨ me.exportType ≠ JS_EXPORT_TYPE_LOCAL then none else some me⟩]
    | some j => names.modify j fun en => { en with me := none }

/-- The loop of `get_exported_names` over the star exports. -/
def visitStars (visit : Nat → NamesM Unit) (d : LoadedModule) : List Int32 → NamesM Unit
  | [] => return
  | se :: stars => do
    let m1 ← deref (d.request se)
    visit m1
    visitStars visit d stars

/-- `get_exported_names`, nested at most `fuel` deep. -/
def getExportedNames (mods : List LoadedModule) : Nat → Nat → Bool → NamesM Unit
  | 0, _, _ => throw .depth
  | fuel + 1, m, fromStar => do
    let s ← get
    if m ∈ s.modules then return
    else
      let d ← deref mods[m]?
      set (⟨s.modules ++ [m], d.entries.exportEntries.foldl (addExportedName fromStar) s.exportedNames⟩ :
        GetExportNamesState)
      visitStars (fun m1 => getExportedNames mods fuel m1 true) d d.entries.starExportEntries

/-- What a property refers to: the variable of an entry of a module
(`EXPORTED_NAME_NORMAL`), or the namespace of a module, which is made when it
is used (`EXPORTED_NAME_NS`). -/
inductive NsValue where
  | varRef (m : Nat) (me : JSExportEntry)
  | ns (m : Nat)

inductive Failure where
  /-- `js_resolve_export_throw_error`. -/
  | syntaxError (res : Resolve) (name : JSAtom)
  | stop (e : Link.Stop)
  | sort (e : Sort.Stop)

/-- What the entry that was found refers to. -/
def refer (mods : List LoadedModule) (resM : Nat) (resMe : JSExportEntry) : Except Failure NsValue :=
  if resMe.localName = JS_ATOM_star then
    match mods[resM]?.bind fun d => d.request resMe.idx with
    | some m1 => return .ns m1
    | none => throw (.stop .fault)
  else return .varRef resM resMe

/-- One exported name, by the result of its resolution; `none` is
`EXPORTED_NAME_AMBIGUOUS`. -/
def settle (mods : List LoadedModule) (name : JSAtom) : Resolve → Except Failure (Option NsValue)
  | .found resM resMe => return some (← refer mods resM resMe)
  | .ambiguous => return none
  | .notFound => throw (.syntaxError .notFound name)
  | .circular => throw (.syntaxError .circular name)

/-- The resolution of one exported name, which the fast case leaves out. -/
def resolveName (mods : List LoadedModule) (fuel m : Nat) (en : ExportedNameEntry) :
    Except Failure (Option NsValue) :=
  match en.me with
  | some me => settle mods en.exportName (.found m me)
  | none =>
    match resolveExport (fun _ => true) mods fuel m en.exportName with
    | .ok res _ => settle mods en.exportName res
    | .error e _ => throw (.stop e)

/-- The loop of `js_build_module_ns` that resolves the names. -/
def resolveNames (mods : List LoadedModule) (fuel m : Nat) :
    List ExportedNameEntry → Except Failure (List (JSAtom × Option NsValue))
  | [] => return []
  | en :: names => do
    let v ← resolveName mods fuel m en
    return (en.exportName, v) :: (← resolveNames mods fuel m names)

/-- `exported_names_cmp`. -/
def exportedNamesCmp (text : JSAtom → List UInt16) (me1 me2 : JSAtom × Option NsValue) (_ : Unit) : Int × Unit :=
  (ArraySort.stringCompare (text me1.1) (text me2.1), ())

/-- The names in their order. -/
def sortExportedNames (text : JSAtom → List UInt16) (names : List (JSAtom × Option NsValue)) :
    Except Failure (List (JSAtom × Option NsValue)) :=
  match (Sort.rqsort (exportedNamesCmp text) names.length).run ⟨fun i => names.getD i (0, none), ()⟩ with
  | .error e _ => throw (.sort e)
  | .ok _ s => return (List.range names.length).map s.elems

/-- The property that the last loop of `js_build_module_ns` adds for a name. -/
def property (en : JSAtom × Option NsValue) : Option (JSAtom × NsValue) := en.2.map fun v => (en.1, v)

/-- `js_build_module_ns`: the properties, in their order. -/
def buildModuleNs (text : JSAtom → List UInt16) (mods : List LoadedModule) (fuel m : Nat) :
    Except Failure (List (JSAtom × NsValue)) :=
  match (getExportedNames mods fuel m false).run ⟨[], []⟩ with
  | .error e _ => throw (.stop e)
  | .ok _ s => do
    let names ← resolveNames mods fuel m s.exportedNames
    return (← sortExportedNames text names).filterMap property

end CkbJs.Impl.Namespace
