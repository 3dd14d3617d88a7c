import CkbJs.Impl.FsLua
import CkbJs.Impl.Loader

/-!
# What imports in an archive promise

The files of a set have canonical paths (`RelPath`) and are given to `do_pack` with or without
a `./` in front (`Source.arg`). A specifier leads from one path to another (`Leads`): it climbs
some directories, and then names the rest of the way. It must normalise to the name the
target is packed under (`Named`), so that the loader finds the target (`Found`).
-/

namespace CkbJs.Spec.Imports

open CkbJs.Impl CkbJs.Impl.FsLua CkbJs.Impl.Loader CkbJs.Impl.Module CkbJs.Impl.CellFs

/-- A relative path, by its components. -/
structure RelPath where
  components : List (List Byte)
  ne_nil : components ≠ []
  canonical : ∀ c ∈ components, c ≠ [] ∧ c ≠ [dot] ∧ c ≠ [dot, dot]
  plain : ∀ c ∈ components, slash ∉ c ∧ 0 ∉ c

theorem RelPath.zero_notMem (p : RelPath) : 0 ∉ joined p.components := fun h =>
  (mem_of_mem_joined h).elim (by decide) fun ⟨c, hc, h0⟩ => (p.plain c hc).2 h0

def RelPath.text (p : RelPath) : CString := ⟨joined p.components, p.zero_notMem⟩

/-- The components of the directory of a file. -/
def RelPath.dir (p : RelPath) : List (List Byte) := p.components.dropLast

/-- A file, and whether its path is given with a `./` in front. -/
structure Source where
  path : RelPath
  dotted : Bool
  content : List Byte

def Source.arg (f : Source) : List Byte :=
  if f.dotted then dot :: slash :: f.path.text.1 else f.path.text.1

/-- One leading `./`, or some `../`, and then components. -/
def specifier (k : Nat) (rest : List (List Byte)) : List Byte :=
  if k = 0 then dot :: slash :: joined rest
  else (List.replicate k [dot, dot, slash]).flatten ++ joined rest

/-- The specifier leads from the directory of a file to another file. -/
inductive Leads (base target : RelPath) : List Byte → Prop
  | climb (k : Nat) (rest : List (List Byte)) (hk : k ≤ base.dir.length) (hrest : rest ≠ [])
      (h : target.components = base.dir.take (base.dir.length - k) ++ rest) :
      Leads base target (specifier k rest)

/-- A specifier that leads to a file normalises to the name under which it is in the table. -/
def Named (files : List Source) (entries : List Entry) (target : Source) : Prop :=
  ∀ base ∈ files, ∀ baseName name : CString, (baseName.1, base.arg) ∈ entries →
    Leads base.path target.path name.1 →
      ∀ packed, (packed, target.arg) ∈ entries ↔ packed = (normalizeName baseName name).1

/-- The loader passes the content on to the engine. -/
def HandsOver (mem : Mem) (l : Loading) (content : List Byte) : Prop :=
  ∃ buf, mem.Holds buf content ∧ l = compile mem buf content.length

/-- In whatever order the table is packed: when the archive is mounted, a specifier that leads
to a file makes the loader find its content. -/
def Found (files : List Source) (entries : List Entry) (target : Source) : Prop :=
  ∀ contents : List Byte → List Byte, (∀ f ∈ files, contents f.arg = f.content) →
    ∀ table : List File, table.Perm (entries.map fun e => (e.1, contents e.2)) →
    ∀ bs, pack table = .ok bs → ∀ (mem : Mem) (buf : Nat), buf ≠ 0 → mem.Holds buf bs →
    ∀ alloc : Alloc, (∀ t size, alloc t size = true) →
      ∃ fs, loadFs mem alloc buf bs.length Fs.init = (0, fs) ∧
        ∀ s : Fs, s.mounts = fs.mounts → ∀ base ∈ files, ∀ baseName name : CString,
          (baseName.1, base.arg) ∈ entries → Leads base.path target.path name.1 →
            HandsOver mem (jsModuleLoader mem alloc (normalizeName baseName name) s).1 target.content

/-- The files are packed, and the names they get are those that imports resolve to. -/
def Resolves (files : List Source) : Prop :=
  ∃ entries, doPackFiles (files.map Source.arg) = .ok entries ∧
    ∀ target ∈ files, Named files entries target ∧ Found files entries target

end CkbJs.Spec.Imports
