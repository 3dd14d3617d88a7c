import CkbJs.Impl.Link
import Mathlib.Data.List.ProdSigma

/-!
# What an exported name stands for

`Provides mods m name m' e`: through its own entries and through star exports,
the module `m` exports under `name` the entry `e` of the module `m'`. A
resolution is right when it finds the one such binding, or tells that there is
none, or that there are several (`Resolves`).
-/

namespace CkbJs.Spec.Link

open CkbJs.Impl.Bytecode CkbJs.Impl.Link

/-- The entry is where a resolution ends: a local variable, or a namespace. -/
def Ends (me : JSExportEntry) : Prop := me.exportType = JS_EXPORT_TYPE_LOCAL ∨ me.localName = JS_ATOM_star

instance (me : JSExportEntry) : Decidable (Ends me) := inferInstanceAs (Decidable (_ ∨ _))

/-- The name exported by `m` stands for the entry `e` of `m'`: its own entry,
the one that an entry with this name refers to, or one of a module whose
exports are exported with a star, which a default export never is. -/
inductive Provides (mods : List LoadedModule) : Nat → JSAtom → Nat → JSExportEntry → Prop where
  | own {m : Nat} {d : LoadedModule} {name : JSAtom} {me : JSExportEntry} : mods[m]? = some d →
      d.findExportEntry name = some me → Ends me → Provides mods m name m me
  | indirect {m m1 m' : Nat} {d : LoadedModule} {name : JSAtom} {me e : JSExportEntry} : mods[m]? = some d →
      d.findExportEntry name = some me → ¬Ends me → d.request me.idx = some m1 →
      Provides mods m1 me.localName m' e → Provides mods m name m' e
  | star {m m1 m' : Nat} {d : LoadedModule} {name : JSAtom} {se : Int32} {e : JSExportEntry} : mods[m]? = some d →
      d.findExportEntry name = none → name ≠ JS_ATOM_default → se ∈ d.entries.starExportEntries →
      d.request se = some m1 → Provides mods m1 name m' e → Provides mods m name m' e

/-- The same module and the same local name, which is how `js_resolve_export1`
tells bindings apart: two namespaces that one module exports count as one, and
so do two variables of a module that was read from bytecode, whose local exports
have no local name. -/
def Same (b b' : Nat × JSExportEntry) : Prop := b.1 = b'.1 ∧ b.2.localName = b'.2.localName

/-- Every request is resolved, and the indices are in range. -/
structure Connected (mods : List LoadedModule) : Prop where
  required : ∀ d ∈ mods, ∀ r ∈ d.required, r < mods.length
  exports : ∀ d ∈ mods, ∀ me ∈ d.entries.exportEntries, me.exportType ≠ JS_EXPORT_TYPE_LOCAL →
    (d.request me.idx).isSome
  stars : ∀ d ∈ mods, ∀ se ∈ d.entries.starExportEntries, (d.request se).isSome

/-- The names that the resolution of `name` can come to. -/
def names (mods : List LoadedModule) (name : JSAtom) : List JSAtom :=
  name :: mods.flatMap fun d => d.entries.exportEntries.map JSExportEntry.localName

/-- The modules and names that the resolution of `name` can come to. -/
def reachable (mods : List LoadedModule) (name : JSAtom) : List (Nat × JSAtom) :=
  (List.range mods.length).product (names mods name)

/-- The result is the one binding that the name stands for, or that there is
none, or that there are several. -/
def Resolves (mods : List LoadedModule) (m : Nat) (name : JSAtom) : Resolve → Prop
  | .found m' e => Provides mods m name m' e ∧ ∀ m'' e', Provides mods m name m'' e' → Same (m', e) (m'', e')
  | .ambiguous => ∃ b b' : Nat × JSExportEntry, Provides mods m name b.1 b.2 ∧ Provides mods m name b'.1 b'.2 ∧
      ¬Same b b'
  | .notFound => ∀ m' e, ¬Provides mods m name m' e
  | .circular => ∀ m' e, ¬Provides mods m name m' e

end CkbJs.Spec.Link
