import CkbJs.Proof.Loader
import CkbJs.Proof.Qjs.Steps

/-!
# The files of the mounted archives

With memory to spare, the lookups in the archives are lookups in the files that the archives
hold (`loadFile_mountedFiles`). So `js_module_loader` goes on from the archives as
`Module.moduleLoader` does from their files (`moduleLoader_mountedFiles`), and what
`run_from_file_system_buf` evaluates is the entry file among them (`wp_runFromFileSystemBuf`).
-/

namespace CkbJs.Proof.Module

open CkbJs.Impl CkbJs.Impl.CellFs CkbJs.Impl.Loader CkbJs.Impl.Module CkbJs.Spec.Loader CkbJs.Spec.Module
open CkbJs.Proof.CellFs CkbJs.Proof.Loader

variable {mem : Mem} {name : CString} {fs : Fs}

/-! ## Lookups -/

/-- With memory to spare, `get_file` finds the files of the archives. -/
theorem getFile_mountedFiles (mem : Mem) (name : CString) (fs : Fs) :
    ((getFile mem always name fs).1 = (-1, none) ∧ mountedFiles mem fs.mounts name = none) ∨
      ∃ file, (getFile mem always name fs).1 = (0, some file) ∧
        mountedFiles mem fs.mounts name = some (mem.bytes file.content file.size) := by
  rw [getFile_eq, if_pos rfl, mountedFiles]
  cases (findFile mem name 0 fs.mounts).2 with
  | none => exact .inl ⟨rfl, rfl⟩
  | some found => exact .inr ⟨_, rfl, rfl⟩

theorem loadFile_mountedFiles (mem : Mem) (name : CString) (fs : Fs) :
    (jsLoadFile mem always name fs).1.map (fun p => mem.bytes p.1 p.2) =
      loadFile (mountedFiles mem fs.mounts) name := by
  unfold jsLoadFile loadFile
  rcases hg : getFile mem always name fs with ⟨r, s⟩
  rcases getFile_mountedFiles mem name fs with ⟨hr, hnone⟩ | ⟨file, hr, hsome⟩
  · rw [hg] at hr
    obtain rfl : r = (-1, none) := hr
    rw [hnone]
    rfl
  · rw [hg] at hr
    obtain rfl : r = (0, some file) := hr
    rw [hsome]
    show Option.map _ (if file.size = 0 then ((none, s) : Option (Nat × Nat) × Fs) else _).1 =
      if (mem.bytes file.content file.size).length = 0 then none else some _
    rw [Mem.length_bytes]
    by_cases h0 : file.size = 0
    · rw [if_pos h0, if_pos h0]
      rfl
    · rw [if_neg h0, if_neg h0]
      rfl

/-- What is loaded is not empty. -/
theorem length_ne_zero_of_jsLoadFile {alloc : Alloc} {p : Nat × Nat}
    (h : (jsLoadFile mem alloc name fs).1 = some p) : p.2 ≠ 0 := by
  unfold jsLoadFile at h
  split at h
  · split at h
    · cases h
    · cases h
      exact ‹_›
  · cases h

/-! ## The loader -/

/-- What the loader does with bytes it has found is what it does with their text. -/
theorem goOn_compile {engine : Module.Engine} {resolve : Nat → M Unit} {file : CString} {buf bufLen : Nat}
    (h : bufLen ≠ 0) : goOn mem engine resolve name file (compile mem buf bufLen) =
      loadContent engine resolve name file (mem.bytes buf bufLen) := by
  obtain ⟨n, rfl⟩ := Nat.exists_eq_succ_of_ne_zero h
  have hhead : (mem.bytes buf (n + 1)).head? = some (mem buf) := by
    rw [Mem.bytes, List.range_succ_eq_map]
    rfl
  unfold compile loadContent
  by_cases hbc : mem buf = Impl.Module.BC_VERSION
  · rw [if_pos hbc, if_pos (hhead.trans (congrArg some hbc))]
    rfl
  · rw [if_neg hbc, if_neg fun h => hbc (Option.some.inj (hhead.symm.trans h))]
    rfl

/-- With memory to spare, the loader goes on from the archives as it does from their files. -/
theorem moduleLoader_mountedFiles (engine : Module.Engine) (resolve : Nat → M Unit)
    (importer specifier name : CString) (mem : Mem) (fs : Fs) : ∃ file r,
      moduleLoader engine (mountedFiles mem fs.mounts) resolve importer specifier name =
        log ⟨importer, specifier, r⟩ >>= fun _ =>
          goOn mem engine resolve name file (jsModuleLoader mem always name fs).1 := by
  have hfirst := loadFile_mountedFiles mem name fs
  have hsecond := loadFile_mountedFiles mem (secondName name) (jsLoadFile mem always name fs).2
  rw [mounts_jsLoadFile] at hsecond
  have hlocate := locate_eq (mountedFiles mem fs.mounts) name
  rw [wanted, present_eq, present_eq, ← hfirst, ← hsecond] at hlocate
  rw [(jsModuleLoader_eq mem always name fs).1]
  cases hf : (jsLoadFile mem always name fs).1 with
  | some p =>
    rw [hf, if_neg fun h => Option.some_ne_none _ h.1] at hlocate
    refine ⟨name, .found name, (moduleLoader_of_found hlocate).trans ?_⟩
    rw [Option.elim_some, goOn_compile (length_ne_zero_of_jsLoadFile hf)]
  | none =>
    rw [hf, Option.map_none, Option.map_none, Option.none_or] at hlocate
    rw [Option.elim_none]
    by_cases hjs : EndsInJs name
    swap
    · rw [if_neg fun h => hjs h.2.1, if_neg hjs] at hlocate
      refine ⟨name, .missing, ?_⟩
      rw [if_neg hjs]
      unfold moduleLoader
      rw [hlocate]
      rfl
    rw [if_pos hjs]
    rw [if_pos hjs] at hlocate
    by_cases hlen : 256 ≤ name.1.length
    · rw [if_pos ⟨rfl, hjs, hlen⟩] at hlocate
      refine ⟨name, .overflow, ?_⟩
      rw [if_pos hlen]
      unfold moduleLoader
      rw [hlocate]
      rfl
    rw [if_neg hlen]
    rw [if_neg fun h => hlen h.2.2] at hlocate
    cases hl : (jsLoadFile mem always (secondName name) (jsLoadFile mem always name fs).2).1 with
    | some p =>
      rw [hl] at hlocate
      refine ⟨secondName name, .found (secondName name), (moduleLoader_of_found hlocate).trans ?_⟩
      rw [Option.elim_some, goOn_compile (length_ne_zero_of_jsLoadFile hl)]
    | none =>
      rw [hl] at hlocate
      refine ⟨name, .missing, ?_⟩
      unfold moduleLoader
      rw [hlocate]
      rfl

/-! ## The entry file -/

/-- The state once an archive is mounted, and no request has been made since. -/
structure Mounts (s s' : Qjs.Vm) (buf bufSize : Nat) : Prop where
  mem : s'.mem = s.mem
  requests : s'.requests = s.requests
  mounts : ∃ m, s'.fs.mounts = m :: s.fs.mounts ∧ Spec.CellFs.Represents s.mem m ⟨buf, bufSize⟩

/-- With memory to spare, `ckb_get_file` finds the files of the archives. -/
theorem wp_ckbGetFile {env : Qjs.Env} {s : Qjs.Vm} (halloc : env.alloc = always)
    {Q : Int × Option FSFile → Qjs.Vm → Prop} {R : Qjs.Stop → Qjs.Vm → Prop}
    (hnone : mountedFiles s.mem s.fs.mounts name = none → ∀ fs, fs.mounts = s.fs.mounts →
      Q (-1, none) { s with fs := fs })
    (hsome : ∀ file, mountedFiles s.mem s.fs.mounts name = some (s.mem.bytes file.content file.size) →
      ∀ fs, fs.mounts = s.fs.mounts → Q (0, some file) { s with fs := fs }) :
    WP (Qjs.ckbGetFile env name) s Q R := by
  refine WP.of_modifyGet ?_
  rw [halloc]
  have hmounts := mounts_getFile s.mem always name s.fs
  rcases hg : getFile s.mem always name s.fs with ⟨r, fs⟩
  rw [hg] at hmounts
  rcases getFile_mountedFiles s.mem name s.fs with ⟨hr, hfile⟩ | ⟨file, hr, hfile⟩
  · rw [hg] at hr
    obtain rfl : r = (-1, none) := hr
    exact hnone hfile fs hmounts
  · rw [hg] at hr
    obtain rfl : r = (0, some file) := hr
    exact hsome file hfile fs hmounts

/-- With memory to spare, `run_from_file_system_buf` evaluates the entry file of what is then
mounted, and fails without a request where there is none. -/
theorem wp_runFromFileSystemBuf {env : Qjs.Env} {s : Qjs.Vm} (halloc : env.alloc = always) {buf bufSize : Nat}
    (h0 : buf ≠ 0) {Q : Int → Qjs.Vm → Prop} {R : Qjs.Stop → Qjs.Vm → Prop}
    (hnone : ∀ s', Mounts s s' buf bufSize → entryFile (mountedFiles s.mem s'.fs.mounts) = none →
      Q (-1) s')
    (hsome : ∀ s', Mounts s s' buf bufSize → ∀ file content addr,
      entryFile (mountedFiles s.mem s'.fs.mounts) = some (file, content) →
      s.mem.bytes addr content.length = content →
        WP (Qjs.evalBuf env addr (Int.bmod content.length (2 ^ 32)) "main.js" true) s' Q R) :
    WP (Qjs.runFromFileSystemBuf env buf bufSize) s Q R := by
  obtain ⟨fs, m, hload, hmounts, hrep, -⟩ :=
    loadFs_always s.mem (a := ⟨buf, bufSize⟩) h0 s.fs
  refine WP.bind (WP.of_modifyGet ?_)
  rw [halloc, hload]
  refine WP.ite (fun h => absurd rfl h) fun _ => WP.bind ?_
  have hfail : (-1 : Int) ≠ 0 := by decide
  have hmounted (fs' : Fs) (h : fs'.mounts = fs.mounts) : Mounts s { s with fs := fs' } buf bufSize :=
    ⟨rfl, rfl, m, h.trans hmounts, hrep⟩
  -- the file that is found is evaluated, unless it is empty
  have hfound (file : CString) {f : FSFile} (fs' : Fs) (h : fs'.mounts = fs.mounts)
      (he : entry (mountedFiles s.mem fs.mounts) = some (file, s.mem.bytes f.content f.size)) :
      WP (if f.size = 0 then pure (-1)
        else Qjs.evalBuf env f.content (Int.bmod f.size (2 ^ 32)) "main.js" true) { s with fs := fs' } Q R := by
    have hfile : entryFile (mountedFiles s.mem fs'.mounts) =
        if f.size = 0 then none else some (file, s.mem.bytes f.content f.size) := by
      rw [entryFile, h, he, Option.filter_some, Mem.length_bytes]
      by_cases hs : f.size = 0 <;> simp [hs]
    refine WP.ite (fun hs => ?_) fun hs => ?_
    · exact WP.of_pure (hnone _ (hmounted fs' h) (by rw [hfile, if_pos hs]))
    · have hw := hsome _ (hmounted fs' h) file (s.mem.bytes f.content f.size) f.content
        (by rw [hfile, if_neg hs]) (by rw [Mem.length_bytes])
      rwa [Mem.length_bytes] at hw
  refine wp_ckbGetFile (s := { s with fs := fs }) halloc (fun hjs fs₁ h₁ => ?_) fun f hjs fs₁ h₁ => ?_
  · refine WP.ite (fun _ => WP.bind ?_) fun h => absurd hfail h
    refine wp_ckbGetFile (s := { s with fs := fs₁ }) halloc (fun hbc fs₂ h₂ => ?_) fun f hbc fs₂ h₂ => ?_
    · refine WP.ite (fun _ => WP.of_pure (hnone _ (hmounted fs₂ (h₂.trans h₁)) ?_)) fun h => absurd hfail h
      show entryFile (mountedFiles s.mem fs₂.mounts) = none
      rw [h₂.trans h₁, entryFile, entry]
      have hbc : mountedFiles s.mem fs.mounts mainFileNameBc = none := h₁ ▸ hbc
      have hjs : mountedFiles s.mem fs.mounts mainFileName = none := hjs
      rw [hjs, hbc]
      rfl
    · refine WP.ite (fun h => absurd rfl h) fun _ => hfound mainFileNameBc fs₂ (h₂.trans h₁) ?_
      have hbc : mountedFiles s.mem fs.mounts mainFileNameBc = some (s.mem.bytes f.content f.size) := h₁ ▸ hbc
      have hjs : mountedFiles s.mem fs.mounts mainFileName = none := hjs
      rw [entry, hjs, hbc]
  · refine WP.ite (fun h => absurd rfl h) fun _ => WP.bind (WP.of_pure ?_)
    refine WP.ite (fun h => absurd rfl h) fun _ => hfound mainFileName fs₁ h₁ ?_
    have hjs : mountedFiles s.mem fs.mounts mainFileName = some (s.mem.bytes f.content f.size) := hjs
    rw [entry, hjs]

end CkbJs.Proof.Module
