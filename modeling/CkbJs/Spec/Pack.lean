import CkbJs.Impl.Pack
import CkbJs.Spec.Readers

/-!
# What packing and unpacking promise

A tree that is packed on one machine and unpacked on another one comes out as it went in:
below the target directory is what the disk had below the working directory, as far as it is on
the way to a path that was packed (`selected`). The paths must not climb, and the shell must get
their directories as they are (`Plain`).
-/

namespace CkbJs.Spec.FsLua

open CkbJs.Impl.FsLua

/-- The path does not climb, and its directory is no command of the shell. -/
structure Plain (path : List Byte) : Prop where
  noUp : [dot, dot] ∉ components path
  text : ShellText (directoryOf path)

instance (path : List Byte) : Decidable (Plain path) :=
  decidable_of_iff ([dot, dot] ∉ components path ∧ ShellText (directoryOf path))
    ⟨fun h => ⟨h.1, h.2⟩, fun h => ⟨h.noUp, h.text⟩⟩

end CkbJs.Spec.FsLua
