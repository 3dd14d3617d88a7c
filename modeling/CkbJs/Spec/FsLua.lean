import CkbJs.Impl.FsLua

/-!
# What the packer promises

A path that is packed must not lead out of the archive (`Contained`), and the paths of
one file must get one name (`Canonical`). `Undoubled` is what the paths must satisfy
for the latter.
-/

namespace CkbJs.Spec.FsLua

open CkbJs.Impl.FsLua

/-! ## Names -/

/-- The name of the path never goes above the root of the archive, and would be accepted
itself. -/
def Contained (path : List Byte) : Prop :=
  ∀ name, mustNormalizePath path = .ok name → Move.Stays 0 (moves name) ∧ isIdealPath name = true

/-- The components, without each `.` that another one follows. -/
def undotted (path : List Byte) : List (List Byte) :=
  (components path).dropLast.filter (fun c => c ≠ [dot]) ++ (components path).getLast?.toList

/-- The name has no `.` that another component follows, and stands for itself. -/
structure Normal (name : List Byte) : Prop where
  undotted : [dot] ∉ (components name).dropLast
  fixed : normalizeRelativePath name = name

/-- The names of paths given to `do_pack` are normal, paths that differ in `.` components
have the same name, and no two entries of the table are for one file. -/
structure Canonical (paths : List (List Byte)) : Prop where
  normal : ∀ path ∈ paths, ∀ name, mustNormalizePath path = .ok name → Normal name
  unique : ∀ path ∈ paths, ∀ path' ∈ paths, ∀ name name', mustNormalizePath path = .ok name →
    mustNormalizePath path' = .ok name' → undotted path = undotted path' → name = name'
  once : ∀ files, doPackFiles paths = .ok files →
    files.Pairwise fun e e' => undotted e.2 ≠ undotted e'.2

/-- No `.` follows another one, the last component apart. -/
def Undoubled (path : List Byte) : Prop :=
  (components path).dropLast.IsChain fun c d => ¬(c = [dot] ∧ d = [dot])

end CkbJs.Spec.FsLua
