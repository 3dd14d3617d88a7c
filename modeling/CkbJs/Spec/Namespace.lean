import CkbJs.Impl.Namespace
import CkbJs.Spec.Link

/-!
# What a module namespace has

`Exports mods m name`: the module `m` exports `name`, itself or from a module
whose exports are exported with a star. The namespace has a property for each
such name that stands for one binding (`IsNamespace`).
-/

namespace CkbJs.Spec.Namespace

open CkbJs.Impl.ArraySort CkbJs.Impl.Bytecode CkbJs.Impl.Link CkbJs.Impl.Namespace CkbJs.Spec.Link

inductive Exports (mods : List LoadedModule) : Nat → JSAtom → Prop where
  | own {m : Nat} {d : LoadedModule} {me : JSExportEntry} : mods[m]? = some d → me ∈ d.entries.exportEntries →
      Exports mods m me.exportName
  | star {m m1 : Nat} {d : LoadedModule} {se : Int32} {name : JSAtom} : mods[m]? = some d →
      se ∈ d.entries.starExportEntries → d.request se = some m1 → name ≠ JS_ATOM_default → Exports mods m1 name →
      Exports mods m name

/-- What an entry of a module refers to. -/
def Refers (mods : List LoadedModule) (m : Nat) (e : JSExportEntry) : NsValue → Prop
  | .varRef m' e' => e.localName ≠ JS_ATOM_star ∧ m' = m ∧ e' = e
  | .ns m1 => e.localName = JS_ATOM_star ∧ ∃ d, mods[m]? = some d ∧ d.request e.idx = some m1

/-- The name of a local export is one of a variable. -/
def LocalNames (mods : List LoadedModule) : Prop :=
  ∀ d ∈ mods, ∀ me ∈ d.entries.exportEntries, me.exportType = JS_EXPORT_TYPE_LOCAL → me.localName ≠ JS_ATOM_star

/-- Every name that is exported stands for something, and the properties are
the names that stand for one binding, once each, sorted by their texts. -/
structure IsNamespace (text : JSAtom → List UInt16) (mods : List LoadedModule) (m : Nat)
    (props : List (JSAtom × NsValue)) : Prop where
  distinct : (props.map Prod.fst).Nodup
  sorted : props.Pairwise fun a b => stringCompare (text a.1) (text b.1) ≤ 0
  provided : ∀ name, Exports mods m name → ∃ m' e, Provides mods m name m' e
  sound : ∀ name v, (name, v) ∈ props → Exports mods m name ∧
    ∃ m' e, Resolves mods m name (.found m' e) ∧ Refers mods m' e v
  complete : ∀ name m' e, Exports mods m name → Resolves mods m name (.found m' e) → ∃ v, (name, v) ∈ props

end CkbJs.Spec.Namespace
