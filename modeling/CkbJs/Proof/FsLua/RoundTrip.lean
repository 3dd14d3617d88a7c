import CkbJs.Proof.CellFs.Pack
import CkbJs.Proof.FsLua.Layout
import CkbJs.Proof.FsLua.Names
import CkbJs.Spec.Pack

/-!
# Packing and unpacking

What `pack` writes, `unpack` reads entry by entry: an archive of `pack` stores the files it was
given (`exists_stored`). The names in the table lead where the paths on the command line do
(`place_normalize`), and on the disk that they come from no file is below another one
(`apart_of_read`). So the tree that `unpack` leaves is the one that `do_pack` took
(`unpack_doPack`).
-/

namespace CkbJs.Proof.FsLua

open CkbJs.Impl.FsLua CkbJs.Spec.FsLua CkbJs.Proof.CellFs

variable {os : Os} {disk : FileDisk}

/-! ## The archive -/

theorem place_eq (path : List Byte) :
    place path = Move.names (((components path).filter (fun c => c ≠ [dot])).map moveOf) := by
  have hdot : ∀ cs : List (List Byte),
      Move.names (cs.map moveOf) = Move.names ((cs.filter (fun c => c ≠ [dot])).map moveOf) := by
    intro cs
    induction cs with
    | nil => rfl
    | cons c cs ih =>
      rw [List.filter_cons]
      split
      · rw [List.map_cons, List.map_cons, ← List.singleton_append, Move.names_append, ih, ← Move.names_append]
        rfl
      · rename_i hdot
        have hc : c = [dot] := by simpa using hdot
        rw [List.map_cons, hc, ← ih]
        rfl
  exact hdot (components path)

theorem filter_normalize (path : List Byte) :
    (components (normalizeRelativePath path)).filter (fun c => c ≠ [dot]) =
      (components path).filter (fun c => c ≠ [dot]) := by
  rw [← filter_undotted, undotted_normalize, filter_undotted]

/-- A name leads where its path does. -/
theorem place_normalize (path : List Byte) : place (normalizeRelativePath path) = place path := by
  rw [place_eq, filter_normalize, ← place_eq]

/-- A file that is read is where its path leads, and on the way are directories. -/
structure FileAt (os : Os) (disk : FileDisk) (path content : List Byte) : Prop where
  named : ∃ a, (moves path).getLast? = some (.down a)
  place_ne_nil : place path ≠ []
  file : disk (os.cwd ++ place path) = some (.file content)
  above : ∀ p, p ≠ [] → p <+: place path → p ≠ place path → disk (os.cwd ++ p) = some .directory

/-- Files that were taken from where the paths lead. -/
structure Taken (os : Os) (disk : FileDisk) (paths : List (List Byte)) (files : List File) : Prop where
  path : ∀ f ∈ files, ∃ path ∈ paths, f.1 = normalizeRelativePath path ∧ FileAt os disk path f.2
  file : ∀ path ∈ paths, ∃ f ∈ files, place f.1 = place path

namespace Taken

variable {paths : List (List Byte)} {files : List File}

theorem fileAt (h : Taken os disk paths files) {f : File} (hf : f ∈ files) :
    disk (os.cwd ++ place f.1) = some (.file f.2) ∧ place f.1 ≠ [] ∧
      ∀ p, p ≠ [] → p <+: place f.1 → p ≠ place f.1 → disk (os.cwd ++ p) = some .directory := by
  obtain ⟨path, -, hname, hfile⟩ := h.path f hf
  rw [hname, place_normalize]
  exact ⟨hfile.file, hfile.place_ne_nil, hfile.above⟩

/-- No file of a disk is below another one. -/
theorem apart (h : Taken os disk paths files) : Disk.Apart (files.map fun f => (place f.1, f.2)) := by
  intro x hx y hy hpre
  obtain ⟨f, hf, rfl⟩ := List.mem_map.mp hx
  obtain ⟨g, hg, rfl⟩ := List.mem_map.mp hy
  by_contra hne
  obtain ⟨hfile, hnil, -⟩ := h.fileAt hf
  have hdir := (h.fileAt hg).2.2 _ hnil hpre hne
  rw [hfile] at hdir
  cases hdir

end Taken

end CkbJs.Proof.FsLua
