import CkbJs.Spec.Module

/-!
# Names and files

The files of a package: `js` has the sources under `jsFile`, `bc` the bytecode
under `bcFile`, for the same modules (`js_eq_some`, `bc_eq_some`). What the
loader finds is such a file (`locate_js`, `locate_bc`). A specifier that has no
name left at the root is the name of no source (`ne_jsFile_of_fromRoot`).
-/

namespace CkbJs.Proof.Module

open CkbJs.Impl CkbJs.Impl.Module CkbJs.Spec.Module

/-! ## Extensions -/

theorem stem_withExt {x : CString} {ext : List Byte} (h : 0 ∉ ext) (hl : ext.length = 3) :
    stem (withExt x ext h) = x.1 := by
  unfold stem withExt
  rw [List.length_append, hl, Nat.add_sub_cancel, List.take_left]

@[simp] theorem stem_jsFile (x : CString) : stem (jsFile x) = x.1 := stem_withExt _ rfl

@[simp] theorem stem_bcFile (x : CString) : stem (bcFile x) = x.1 := stem_withExt _ rfl

theorem stem_bcFile_eq_iff {x y : CString} : stem (bcFile y) = stem (jsFile x) ↔ y = x := by
  rw [stem_bcFile, stem_jsFile]
  exact Subtype.ext_iff.symm

theorem jsFile_inj {x y : CString} : jsFile x = jsFile y ↔ x = y :=
  ⟨fun h => Subtype.ext (by rw [← stem_jsFile x, h, stem_jsFile]), fun h => by rw [h]⟩

theorem bcFile_inj {x y : CString} : bcFile x = bcFile y ↔ x = y :=
  ⟨fun h => Subtype.ext (by rw [← stem_bcFile x, h, stem_bcFile]), fun h => by rw [h]⟩

/-- The loader's second name for the file of a source is that of its bytecode. -/
@[simp] theorem secondName_jsFile (x : CString) : secondName (jsFile x) = bcFile x := by
  apply Subtype.ext
  show (x.1 ++ extJs).take ((x.1 ++ extJs).length - 3) ++ extBc = x.1 ++ extBc
  rw [List.length_append, show extJs.length = 3 from rfl, Nat.add_sub_cancel, List.take_left]

theorem getLast?_jsFile (x : CString) : (jsFile x).1.getLast? = some 115 := by
  show (x.1 ++ extJs).getLast? = some 115
  rw [List.getLast?_append]
  rfl

/-- No name ends both ways. -/
theorem secondName_ne_jsFile (name x : CString) : secondName name ≠ jsFile x := by
  intro h
  have h1 : (secondName name).1.getLast? = some 99 := by
    show (name.1.take (name.1.length - 3) ++ extBc).getLast? = some 99
    rw [List.getLast?_append]
    rfl
  rw [h, getLast?_jsFile] at h1
  exact absurd h1 (by decide)

/-! ## The files of a package -/

section

variable {engine : Module.Engine} (p : Package engine)

/-- The source of a module of the package. -/
def sourceOf (x : CString) : Option (List Byte) := (p.modules.find? fun m => m.1 = x).map Prod.snd

theorem js_jsFile (x : CString) : p.js (jsFile x) = sourceOf p x := by
  unfold Package.js sourceOf
  simp only [jsFile_inj]

theorem bc_bcFile (x : CString) : p.bc (bcFile x) = (sourceOf p x).map (compileFromFile engine) := by
  unfold Package.bc sourceOf
  simp only [bcFile_inj, Option.map_map]
  rfl

variable {p}

theorem mem_of_sourceOf {x : CString} {source : List Byte} (h : sourceOf p x = some source) :
    (x, source) ∈ p.modules := by
  obtain ⟨m, hm, rfl⟩ := Option.map_eq_some_iff.mp h
  have hx : m.1 = x := by simpa using List.find?_some hm
  rw [← hx]
  exact List.mem_of_find?_eq_some hm

theorem js_eq_some {file : CString} {source : List Byte} (h : p.js file = some source) :
    ∃ x, file = jsFile x ∧ sourceOf p x = some source := by
  obtain ⟨m, hm, rfl⟩ := Option.map_eq_some_iff.mp h
  have hx : jsFile m.1 = file := by simpa using List.find?_some hm
  exact ⟨m.1, hx.symm, by rw [← js_jsFile, hx]; exact h⟩

theorem bc_eq_some {file : CString} {content : List Byte} (h : p.bc file = some content) :
    ∃ x source, file = bcFile x ∧ sourceOf p x = some source ∧ content = compileFromFile engine source := by
  obtain ⟨m, hm, rfl⟩ := Option.map_eq_some_iff.mp h
  have hx : bcFile m.1 = file := by simpa using List.find?_some hm
  rw [← hx, bc_bcFile] at h
  obtain ⟨source, hs, hc⟩ := Option.map_eq_some_iff.mp h
  exact ⟨m.1, source, hx.symm, hs, hc.symm⟩

theorem loadFile_eq_some {files : Files} {file : CString} {content : List Byte} :
    loadFile files file = some content ↔ files file = some content ∧ content ≠ [] := by
  unfold loadFile
  cases h : files file with
  | none => exact ⟨nofun, nofun⟩
  | some c =>
    simp only [List.length_eq_zero_iff]
    by_cases hc : c = []
    · rw [if_pos hc]
      exact ⟨nofun, fun h => absurd hc (by rw [Option.some.inj h.1]; exact h.2)⟩
    · rw [if_neg hc]
      exact ⟨fun h => ⟨h, by rwa [← Option.some.inj h]⟩, fun h => h.1⟩

/-- Bytecode is never empty. -/
theorem compileFromFile_ne_nil (source : List Byte) : compileFromFile engine source ≠ [] := fun h => by
  have := engine.head_writeObject .empty source
  rw [show engine.writeObject .empty source = [] from h] at this
  nomatch this

theorem locate_of_loadFile {files : Files} {name : CString} {content : List Byte}
    (h : loadFile files name = some content) : locate files name = .found name content := by
  unfold locate
  rw [h]

/-- What the loader finds: the file itself or the second one. -/
theorem loadFile_of_locate {files : Files} {name file : CString} {content : List Byte}
    (h : locate files name = .found file content) :
    loadFile files file = some content ∧ (file = name ∨ file = secondName name) := by
  unfold locate at h
  cases hn : loadFile files name with
  | some c =>
    rw [hn] at h
    cases h
    exact ⟨hn, .inl rfl⟩
  | none =>
    rw [hn] at h
    dsimp only at h
    split at h
    · nomatch h
    split at h
    · nomatch h
    split at h
    · nomatch h
    cases hs : loadFile files (secondName name) with
    | none => rw [hs] at h; nomatch h
    | some c =>
      rw [hs] at h
      cases h
      exact ⟨hs, .inr rfl⟩

/-- Among the sources, only the file itself is found. -/
theorem locate_js {name file : CString} {content : List Byte} (h : locate p.js name = .found file content) :
    file = name ∧ content ≠ [] ∧ ∃ x, name = jsFile x ∧ sourceOf p x = some content := by
  obtain ⟨hload, hfile⟩ := loadFile_of_locate h
  obtain ⟨hjs, hne⟩ := loadFile_eq_some.mp hload
  obtain ⟨x, hx, hs⟩ := js_eq_some hjs
  rcases hfile with rfl | hfile
  · exact ⟨rfl, hne, x, hx, hs⟩
  · exact absurd (hfile.symm.trans hx) (secondName_ne_jsFile name x)

theorem locate_bc {name file : CString} {content : List Byte} (h : locate p.bc name = .found file content) :
    ∃ x source, file = bcFile x ∧ sourceOf p x = some source ∧ content = compileFromFile engine source :=
  bc_eq_some (loadFile_eq_some.mp (loadFile_of_locate h).1).1

/-- The module `main`. -/
def mainStem : CString := ⟨[109, 97, 105, 110], by decide⟩

theorem entry_js : entry p.js = (sourceOf p mainStem).map fun source => (jsFile mainStem, source) := by
  have hbc : p.js mainFileNameBc = none := by
    cases h : p.js mainFileNameBc with
    | none => rfl
    | some content =>
      obtain ⟨x, hx, -⟩ := js_eq_some h
      exact absurd hx (secondName_ne_jsFile (jsFile mainStem) x)
  unfold entry
  rw [hbc, show mainFileName = jsFile mainStem from rfl, js_jsFile]
  cases sourceOf p mainStem <;> rfl

theorem entry_bc : entry p.bc =
    (sourceOf p mainStem).map fun source => (bcFile mainStem, compileFromFile engine source) := by
  have hjs : p.bc mainFileName = none := by
    cases h : p.bc mainFileName with
    | none => rfl
    | some content =>
      obtain ⟨x, source, hx, -⟩ := bc_eq_some h
      rw [← secondName_jsFile x] at hx
      exact absurd hx.symm (secondName_ne_jsFile (jsFile x) mainStem)
  unfold entry
  rw [hjs, show mainFileNameBc = bcFile mainStem from rfl, bc_bcFile]
  cases sourceOf p mainStem <;> rfl

end

/-! ## Names from the root -/

theorem normalizeLeading_root {r : List Byte} (h : (normalizeLeading [] r).2 = [])
    (filename : List Byte) : normalizeLeading filename r = (filename, []) := by
  induction hn : r.length using Nat.strong_induction_on generalizing r with
  | _ n ih =>
    subst hn
    obtain heq | ⟨r', rfl⟩ | ⟨r', filename', rfl, hr, heq⟩ := normalizeLeading_step [] r
    · rw [heq] at h
      rw [show r = [] from h]
      exact rfl
    · rw [normalizeLeading_stay] at h ⊢
      exact ih r'.length (Nat.lt_succ_of_lt (Nat.lt_succ_self _)) h rfl
    · cases hr

/-- A specifier of which nothing is left at the root is no source from elsewhere. -/
theorem ne_jsFile_of_fromRoot {specifier : CString} (h : (fromRoot specifier).1 = []) (baseName x : CString) :
    normalizeName baseName specifier ≠ jsFile x := by
  intro hx
  have hlast : (normalizeBytes baseName.1 specifier.1).getLast? = some 115 := by
    rw [← getLast?_jsFile x, ← hx]
    rfl
  have hroot : normalizeBytes [] specifier.1 = [] := h
  unfold normalizeBytes at hlast hroot
  by_cases hdot : specifier.1.head? ≠ some dot
  · rw [if_pos hdot] at hlast hroot
    rw [hroot] at hlast
    nomatch hlast
  · rw [if_neg hdot] at hlast hroot
    dsimp only at hlast hroot
    have hr : (normalizeLeading (dirName []) specifier.1).2 = [] := by
      split at hroot
      · exact hroot
      · exact absurd hroot (by simp)
    rw [normalizeLeading_root hr] at hlast
    split at hlast
    · nomatch hlast
    · rw [List.getLast?_append] at hlast
      have hlast : (some slash : Option Byte) = some 115 := hlast
      exact absurd hlast (by decide)

end CkbJs.Proof.Module
