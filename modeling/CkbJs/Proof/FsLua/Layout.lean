import CkbJs.Proof.FsLua.Unpack
import CkbJs.Spec.Readers
import Mathlib.Data.List.TakeWhile

/-!
# What unpacking leaves

A name leads through directories to a file (`exists_moves`), whose directory is the one that is
made for it (`moves_directoryFor`). So a step of `unpack` puts its file below the target
directory (`wp_copyStreamToFile_laid`), and a run lays out the files of the archive one after
the other (`laidOut_of_run`).
-/

namespace CkbJs.Proof.FsLua

open CkbJs.Impl.FsLua CkbJs.Spec.FsLua

variable {os : Os} {s : Unpacking}

/-! ## Names -/

theorem components_directoryOf (file : List Byte) :
    components (directoryOf file) = (components file).dropLast ++ [[]] := by
  obtain ⟨init, c, hc⟩ := (List.eq_nil_or_concat (components file)).resolve_left (components_ne_nil file)
  rw [List.concat_eq_append] at hc
  have hslash (d : List Byte) (hd : d ∈ components file) : slash ∉ d := slash_notMem_components hd
  have hkeep (b : Byte) (hb : b ∈ c.reverse) : decide (b ≠ pathSeparator) = true := by
    refine decide_eq_true fun heq => ?_
    rw [List.mem_reverse, heq] at hb
    exact hslash c (hc ▸ List.mem_append_right init (List.mem_singleton.mpr rfl)) hb
  rw [hc, List.dropLast_concat, directoryOf]
  by_cases hinit : init = []
  · have hfile : file = c := by
      rw [← joined_components file, hc, hinit]
      exact List.intercalate_singleton
    rw [hfile, List.dropWhile_eq_nil_iff.mpr hkeep, hinit]
    rfl
  · have hfile : file = joined init ++ slash :: c := by
      rw [← joined_components file, hc, joined_append hinit (List.cons_ne_nil c [])]
      exact congrArg _ (congrArg _ List.intercalate_singleton)
    have hrev : file.reverse = c.reverse ++ slash :: (joined init).reverse := by
      rw [hfile, List.reverse_append, List.reverse_cons, List.append_assoc]
      rfl
    rw [hrev, List.dropWhile_append_of_pos hkeep, List.dropWhile_cons_of_neg (by decide)]
    rw [List.reverse_cons, List.reverse_reverse, components_append_slash]
    rw [components_joined (fun d hd => hslash d (hc ▸ List.mem_append_left [c] hd)) hinit]
    rfl

theorem directoryFor_eq (directory name : List Byte) :
    directoryFor directory name = directory ++ slash :: directoryOf name := by
  refine components_injective ?_
  rw [directoryFor, components_directoryOf, components_append_slash, components_append_slash,
    components_directoryOf, List.dropLast_append_of_ne_nil (components_ne_nil name), List.append_assoc]

/-- The name leads through directories to a file. -/
def LeadsDown (name : List Byte) : Prop :=
  ∃ ms a, moves name = ms ++ [.down a] ∧ .up ∉ ms ∧ moves (directoryOf name) = ms ++ [.stay]

theorem up_notMem_map {cs : List (List Byte)} (h : [dot, dot] ∉ cs) : .up ∉ cs.map moveOf := by
  intro hup
  obtain ⟨d, hd, hmove⟩ := List.mem_map.mp hup
  rw [moveOf, if_neg (c := d = [dot, dot]) fun heq => h (heq ▸ hd)] at hmove
  split at hmove
  · cases hmove
  · cases hmove

theorem leadsDown_of {name : List Byte} {a : List Byte} (hup : [dot, dot] ∉ components name)
    (hlast : (moves name).getLast? = some (.down a)) : LeadsDown name := by
  obtain ⟨init, c, hc⟩ := (List.eq_nil_or_concat (components name)).resolve_left (components_ne_nil name)
  rw [List.concat_eq_append] at hc
  rw [moves, hc, List.map_append, List.map_singleton, List.getLast?_concat] at hlast
  rw [hc, List.mem_append, not_or] at hup
  refine ⟨init.map moveOf, a, ?_, up_notMem_map hup.1, ?_⟩
  · rw [moves, hc, List.map_append, List.map_singleton, Option.some.inj hlast]
  · rw [moves, components_directoryOf, hc, List.dropLast_concat, List.map_append]
    rfl

theorem exists_moves {name : List Byte} (hrel : Relative name) (hnamed : (components name).getLast? ≠ some []) :
    LeadsDown name := by
  obtain ⟨init, c, hc⟩ := (List.eq_nil_or_concat (components name)).resolve_left (components_ne_nil name)
  rw [List.concat_eq_append] at hc
  have hrel := hrel.components
  rw [hc, List.getLast?_concat] at hnamed
  have hlast : moveOf c = .down c := by
    obtain ⟨hdot, hdots⟩ := hrel c (hc ▸ List.mem_append_right init (List.mem_singleton.mpr rfl))
    rw [moveOf, if_neg fun h => h.elim (fun h => hnamed (congrArg some h)) hdot, if_neg hdots]
  refine leadsDown_of (fun h => (hrel _ h).2 rfl) (a := c) ?_
  rw [moves, hc, List.map_append, List.map_singleton, hlast, List.getLast?_concat]

theorem moves_directoryFor (directory name : List Byte) :
    moves (directoryFor directory name) = moves directory ++ moves (directoryOf name) := by
  rw [directoryFor_eq, moves_append_slash]

theorem unpacked_eq {name : List Byte} (hrel : Relative name) (directory : List Byte) :
    unpacked os directory name = targetDir os directory ++ place name :=
  Move.walk_of_up_notMem (up_notMem_map fun h => (hrel.components _ h).2 rfl) _

/-! ## The shell -/

theorem shellText_directoryFor {directory name : List Byte} (hdir : ShellText directory)
    (hname : ShellText (directoryOf name)) : ShellText (directoryFor directory name) := by
  intro c hc
  rw [directoryFor_eq, List.mem_append, List.mem_cons] at hc
  obtain hc | rfl | hc := hc
  · exact hdir c hc
  · decide
  · exact hname c hc

theorem head_directoryFor {directory name : List Byte} (h : directory.head? ≠ some 45) :
    (directoryFor directory name).head? ≠ some 45 := by
  rw [directoryFor_eq]
  cases directory with
  | nil => exact fun h45 => absurd (Option.some.inj h45) (by decide)
  | cons c cs => exact h

theorem unquote_quote {t : List Byte} (h : ShellText t) : unquote (quote t) = t := by
  induction t with
  | nil => rfl
  | cons c t ih =>
    obtain ⟨hdollar, -, hcontrol⟩ := h c List.mem_cons_self
    have hnewline : c ≠ 10 := by
      rintro rfl
      cases hcontrol
    rw [quote.eq_def]
    dsimp only
    by_cases hesc : c = 34 ∨ c = 92
    · have hall : c = 34 ∨ c = 92 ∨ c = 10 := hesc.imp_right .inl
      rw [if_pos hall, List.cons_append, List.singleton_append, unquote, if_pos hesc,
        ih fun d hd => h d (List.mem_cons_of_mem c hd)]
    · have hall : ¬(c = 34 ∨ c = 92 ∨ c = 10) := fun hc =>
        hc.elim (fun h34 => hesc (.inl h34)) fun h => h.elim (fun h92 => hesc (.inr h92)) hnewline
      have hbackslash : c ≠ 92 := fun h => hesc (.inr h)
      rw [if_neg hall, hcontrol, if_neg Bool.false_ne_true, List.singleton_append, unquote,
        ih fun d hd => h d (List.mem_cons_of_mem c hd)]
      · exact fun _ _ heq => absurd heq hbackslash
      · exact fun _ _ heq => absurd heq hdollar

theorem makesDirectories_mkdirShell (cwd : Location) : MakesDirectories (mkdirShell cwd) := by
  intro dir htext _ d
  have hdir : ((mkdirCommand dir).drop 10).dropLast = quote dir := by
    rw [mkdirCommand, List.append_assoc]
    exact List.dropLast_concat
  show (d.mkdirP (Os.start (mkdirShell cwd) (unquote ((mkdirCommand dir).drop 10).dropLast)) _).map _ = _
  rw [hdir, unquote_quote htext]

/-! ## A run -/

/-- Below the target directory are the files, put there one after the other. -/
structure LaidOut (os : Os) (directory : List Byte) (files : List File) (s : Unpacking) : Prop where
  follow : s.disk.follow (os.start (directory ++ [slash])) (moves directory) = some (targetDir os directory)
  laid : ∀ p, p ≠ [] →
    s.disk (targetDir os directory ++ p) = Disk.laid (files.map fun f => (place f.1, f.2)) p

theorem laidOut_nil {directory : List Byte} {disk : FileDisk} (h : EmptyTarget os directory disk) :
    LaidOut os directory [] ⟨disk, [], []⟩ := ⟨h.found, h.empty⟩

theorem moves_ne_nil (p : List Byte) : moves p ≠ [] := fun h => components_ne_nil p (List.map_eq_nil_iff.mp h)

/-- `copy_stream_to_file` puts a file of the content it reads. -/
theorem wp_copyStreamToFile_laid (hos : MakesDirectories os) {directory name archive content : List Byte}
    {pos length : Nat} {files : List File} (htext : ShellText directory) (hoption : directory.head? ≠ some 45)
    (hleads : LeadsDown name) (hshell : ShellText (directoryOf name)) (hread : read archive pos length = .ok content)
    (hapart : Disk.Apart ((files ++ [(name, content)]).map fun f => (place f.1, f.2)))
    (h : LaidOut os directory files s) :
    WP (copyStreamToFile os directory name archive pos length) s
      (fun _ s' => LaidOut os directory (files ++ [(name, content)]) s') fun _ _ => False := by
  obtain ⟨ms, a, hmoves, hup, hparent⟩ := hleads
  have hplace : place name = Move.names ms ++ [a] := by
    rw [place, hmoves, Move.names_append]
    rfl
  have hroot : s.disk (targetDir os directory) = some .directory :=
    Disk.directory_of_follow h.follow (moves_ne_nil directory)
  rw [List.map_append, List.map_singleton, hplace] at hapart
  obtain ⟨d, hmkdir, hfollow, hfile, hkept, hlaid⟩ := Disk.laid_put h.laid hapart
  -- the shell makes the directories, and the file can be created
  have hexec : os.execute (mkdirCommand (directoryFor directory name)) s.disk = some (d, []) := by
    rw [hos _ (shellText_directoryFor htext hshell) (head_directoryFor hoption), moves_directoryFor, hparent,
      directoryFor_eq, start_append, Disk.mkdirP_append, Disk.mkdirP_of_follow h.follow, Option.bind_some]
    rw [Disk.walk_of_follow h.follow, Disk.mkdirP_names hroot (by simpa using hup), Move.names_append]
    rw [show Move.names [(.stay : Move (List Byte))] = [] from rfl, List.append_nil, hmkdir]
    rfl
  have hopen : d.fileAt (os.start (directory ++ slash :: name)) (moves (directory ++ slash :: name)) =
      some (targetDir os directory ++ Move.names ms ++ [a]) := by
    rw [start_append, moves_append_slash, hmoves, ← List.append_assoc]
    refine Disk.fileAt_concat ?_ hfile
    rw [Disk.follow_append, Disk.follow_mono hkept h.follow, Option.bind_some,
      Disk.follow_names (hkept _ hroot) hup]
    exact hfollow
  unfold copyStreamToFile
  rw [separated_eq]
  refine WP.bind (WP.bind (WP.of_get ?_))
  have hdir : directoryOf (directory ++ pathSeparator :: name) = directoryFor directory name := rfl
  rw [hdir, hexec]
  refine WP.of_set (WP.bind (WP.bind (WP.of_get ?_)))
  have hopen' : d.fileAt (os.start (directory ++ pathSeparator :: name)) (moves (directory ++ pathSeparator :: name)) =
      some (targetDir os directory ++ Move.names ms ++ [a]) := hopen
  dsimp only
  rw [hopen']
  refine WP.bind (WP.of_set (WP.of_pure (WP.bind (wp_ofExcept (fun content' hcontent => ?_) fun e he => ?_))))
  · obtain rfl : content = content' := Except.ok.inj (hread.symm.trans hcontent)
    refine WP.of_modify ?_
    dsimp only
    rw [Disk.set_set]
    refine ⟨Disk.follow_mono (fun l hl => Disk.directory_set _ hfile (hkept l hl)) h.follow, fun p hp => ?_⟩
    rw [List.map_append, List.map_singleton, hplace]
    exact hlaid p hp
  · cases hread.symm.trans he

theorem readStringNull_file (a : StoredArchive) {m : Metadatum} (hm : m ∈ a.metadata) :
    readStringNull a.bytes (a.blobStart + m.fileNameOffset) m.fileNameLength = .ok (a.file m).1 := by
  obtain ⟨-, hnul⟩ := a.names m hm
  have hlt : ¬a.bytes.length ≤ a.blobStart + m.fileNameOffset := fun hle => by
    rw [slice, List.drop_eq_nil_of_le hle, List.take_nil] at hnul
    exact absurd hnul List.not_mem_nil
  rw [readStringNull, Impl.FsLua.read, if_neg hlt]
  exact if_pos hnul

theorem read_file (a : StoredArchive) {m : Metadatum}
    (h : a.blobStart + m.fileContentOffset < a.bytes.length) :
    read a.bytes (a.blobStart + m.fileContentOffset) m.fileContentLength = .ok (a.file m).2 :=
  if_neg (Nat.not_le.mpr h)

/-- The loop puts the files of the entries it goes over. -/
theorem wp_unpackFiles_laid (hos : MakesDirectories os) {directory : List Byte} {a : StoredArchive}
    (htext : ShellText directory) (hoption : directory.head? ≠ some 45) (hleads : ∀ f ∈ a.files, LeadsDown f.1)
    (hshell : ∀ f ∈ a.files, ShellText (directoryOf f.1))
    (hapart : Disk.Apart (a.files.map fun f => (place f.1, f.2)))
    (hcontents : ∀ m ∈ a.metadata, a.blobStart + m.fileContentOffset < a.bytes.length)
    {before after : List Metadatum} (hsplit : a.metadata = before ++ after)
    (h : LaidOut os directory (before.map a.file) s) :
    WP (unpackFiles os directory a.bytes a.blobStart after) s
      (fun _ s' => LaidOut os directory a.files s') fun _ _ => False := by
  induction after generalizing before s with
  | nil =>
    rw [List.append_nil] at hsplit
    rw [← hsplit] at h
    exact h
  | cons m after ih =>
    have hm : m ∈ a.metadata := hsplit ▸ List.mem_append_right before List.mem_cons_self
    have hf : a.file m ∈ a.files := List.mem_map_of_mem hm
    have hsplit' : a.metadata = before ++ [m] ++ after := by rw [hsplit, List.append_assoc]; rfl
    have hfiles : a.files = before.map a.file ++ [a.file m] ++ after.map a.file := by
      rw [StoredArchive.files, hsplit', List.map_append, List.map_append]
      rfl
    have hlaid := hapart
    rw [hfiles, List.map_append] at hlaid
    have hstep := wp_copyStreamToFile_laid hos htext hoption (hleads _ hf) (hshell _ hf)
      (read_file a (hcontents m hm)) hlaid.of_append h
    rw [unpackFiles, readStringNull_file a hm]
    refine WP.bind (WP.of_pure (WP.seq hstep (fun _ _ h => h) fun _ s' h' => ?_))
    exact ih hsplit' (by rw [List.map_append]; exact h')

/-- `unpack` runs to its end, and lays out the files of the archive. -/
theorem laidOut_of_leadsDown (hos : MakesDirectories os) {directory : List Byte} {disk : FileDisk}
    (htarget : EmptyTarget os directory disk) {a : StoredArchive} (hleads : ∀ f ∈ a.files, LeadsDown f.1)
    (hshell : ∀ f ∈ a.files, ShellText (directoryOf f.1))
    (hapart : Disk.Apart (a.files.map fun f => (place f.1, f.2)))
    (hcontents : ∀ m ∈ a.metadata, a.blobStart + m.fileContentOffset < a.bytes.length) :
    ∃ s', runUnpack os directory a.bytes disk = .ok () s' ∧ LaidOut os directory a.files s' := by
  have hwp : WP (unpack os directory a.bytes) ⟨disk, [], []⟩ (fun _ s' => LaidOut os directory a.files s')
      fun _ _ => False := by
    rw [unpack, a.table]
    exact WP.bind (WP.of_pure (wp_unpackFiles_laid hos htarget.text htarget.option hleads hshell hapart hcontents
      (List.nil_append _).symm (laidOut_nil htarget)))
  obtain ⟨_, s', hrun, h⟩ := hwp.exists_ok
  exact ⟨s', hrun, h⟩

theorem laidOut_of_run (hos : MakesDirectories os) {directory : List Byte} {disk : FileDisk}
    (htarget : EmptyTarget os directory disk) {a : StoredArchive} (hrel : ∀ f ∈ a.files, Relative f.1)
    (ha : Unpackable a) :
    ∃ s', runUnpack os directory a.bytes disk = .ok () s' ∧ LaidOut os directory a.files s' :=
  laidOut_of_leadsDown hos htarget (fun f hf => exists_moves (hrel f hf) (ha.named f hf)) ha.text ha.apart ha.contents

/-- The disk has the content of the last file that leads to the place of a name. -/
theorem disk_of_laidOut {directory name : List Byte} {files : List File} (hrel : Relative name)
    (hname : name ∈ files.map Prod.fst) (hplace : place name ≠ []) (h : LaidOut os directory files s) :
    s.disk (unpacked os directory name) = (lastContent files name).map .file := by
  rw [unpacked_eq hrel, h.laid _ hplace]
  unfold lastContent
  cases hlast : Disk.lastOf (files.map fun f => (place f.1, f.2)) (place name) with
  | some content => exact Disk.laid_of_lastOf hlast
  | none =>
    obtain ⟨f, hf, rfl⟩ := List.mem_map.mp hname
    exact absurd rfl (Disk.lastOf_eq_none.mp hlast _ (List.mem_map_of_mem hf))

end CkbJs.Proof.FsLua
