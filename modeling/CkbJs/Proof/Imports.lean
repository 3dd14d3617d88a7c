import CkbJs.Proof.CellFs.Pack
import CkbJs.Proof.FsLua.Names
import CkbJs.Proof.Loader
import CkbJs.Proof.Module.Specifiers

/-!
# Imports in an archive

The name that an accepted path is packed under is its text (`normalize_arg`), and so is what a
specifier that leads to it normalises to (`normalizeName_leads`). The loader finds the file of
that name in the archive, if it is not empty (`resolves_of_accepted`).
-/

namespace CkbJs.Proof.Imports

open CkbJs.Impl CkbJs.Impl.CellFs CkbJs.Impl.FsLua CkbJs.Impl.Loader CkbJs.Impl.Module
open CkbJs.Spec.CellFs CkbJs.Spec.Imports CkbJs.Proof.CellFs CkbJs.Proof.FsLua CkbJs.Proof.Loader
open CkbJs.Proof.Module

/-! ## The table -/

theorem components_text (p : RelPath) : components p.text.1 = p.components :=
  components_joined (fun c hc => (p.plain c hc).1) p.ne_nil

theorem text_injective {p q : RelPath} (h : p.text = q.text) : p = q := by
  have hcomponents : p.components = q.components := by
    rw [← components_text p, ← components_text q, h]
  cases p
  cases q
  cases hcomponents
  rfl

/-- Both ways to give a path make the same name. -/
theorem normalize_arg (f : Source) : normalizeRelativePath f.arg = f.path.text.1 := by
  have hdot {cs : List (List Byte)} (h : ∀ c ∈ cs, c ∈ f.path.components) : [dot] ∉ cs := fun hmem =>
    (f.path.canonical _ (h _ hmem)).2.1 rfl
  unfold Source.arg
  split
  · refine normalize_dot_slash ?_
    rw [components_text]
    exact hdot fun c hc => List.mem_of_mem_tail (List.dropLast_subset _ hc)
  · refine normalize_eq_self ?_
    rw [components_text]
    exact hdot fun c hc => List.dropLast_subset _ hc

/-- The entry of a file. -/
def entryOf (f : Source) : Entry := (f.path.text.1, f.arg)

variable {files : List Source}

theorem nodup_names (h : (files.map Source.path).Nodup) : (files.map fun f => f.path.text.1).Nodup := by
  rw [show (fun f : Source => f.path.text.1) = (fun p : RelPath => p.text.1) ∘ Source.path from rfl,
    ← List.map_map]
  exact h.map fun p q hpq => text_injective (Subtype.ext hpq)

theorem doPackFiles_eq (hnodup : (files.map Source.path).Nodup)
    (haccepted : ∀ f ∈ files, isIdealPath f.arg = true) :
    doPackFiles (files.map Source.arg) = .ok (files.map entryOf) := by
  have hmap : (files.map Source.arg).map normalizeRelativePath = files.map fun f => f.path.text.1 := by
    rw [List.map_map]
    exact List.map_congr_left fun f _ => normalize_arg f
  rw [doPackFiles, addEntries_eq (fun path hpath => ?_) ?_, List.nil_append, List.map_map]
  · exact congrArg _ (List.map_congr_left fun f _ => by rw [entryOf, ← normalize_arg f]; rfl)
  · rw [hmap]
    exact nodup_names hnodup
  · obtain ⟨f, hf, rfl⟩ := List.mem_map.mp hpath
    exact haccepted f hf

/-- The name of a file is its path. -/
theorem name_of_mem {f : Source} {name : List Byte} (h : (name, f.arg) ∈ files.map entryOf) :
    name = f.path.text.1 := by
  obtain ⟨g, -, hg⟩ := List.mem_map.mp h
  have hname : g.path.text.1 = name := congrArg Prod.fst hg
  have harg : g.arg = f.arg := congrArg Prod.snd hg
  rw [← hname, ← normalize_arg g, harg, normalize_arg f]

theorem named (files : List Source) {target : Source} (ht : target ∈ files) :
    Named files (files.map entryOf) target := by
  intro base _ baseName name hbase hleads packed
  obtain rfl : baseName = base.path.text := Subtype.ext (name_of_mem hbase)
  rw [normalizeName_leads hleads]
  exact ⟨name_of_mem, fun h => h ▸ List.mem_map_of_mem ht⟩

/-! ## The archive -/

/-- Where the content of a packed file is. -/
theorem first_of_pack {table : List File} {bs : List Byte} {mem : Mem} {buf : Nat} {name : CString}
    {content : List Byte} (hpack : pack table = .ok bs) (hmem : mem.Holds buf bs)
    (hnodup : (table.map Prod.fst).Nodup) (h : (name.1, content) ∈ table) (n : Nat) :
    ∃ e, (⟨buf, n⟩ : Archive).First mem name e ∧ e.content.length = content.length ∧
      mem.Holds (contentAddr mem buf e) content := by
  rcases findEntry_of_stored (stored_of_pack hpack hmem) name 0 with ⟨-, hnot⟩ | ⟨e, f, hsome, hf, hn, hst⟩
  · exact absurd (List.mem_map_of_mem (f := Prod.fst) h) hnot
  · obtain rfl : f = (name.1, content) := List.inj_on_of_nodup_map hnodup hf h hn
    exact ⟨e, findEntry_eq_some.mp hsome, hst.length, hst.content⟩

theorem found (hnodup : (files.map Source.path).Nodup) {target : Source} (ht : target ∈ files)
    (hne : target.content ≠ []) : Found files (files.map entryOf) target := by
  intro contents hcontents table htable bs hpack mem buf hbuf hmem alloc halloc
  obtain rfl : alloc = always := funext fun t => funext fun size => halloc t size
  obtain ⟨fs, m, hload, hmounts, hrep, -⟩ :=
    loadFs_always mem (show (⟨buf, bs.length⟩ : Archive).buf ≠ 0 from hbuf) Fs.init
  refine ⟨fs, hload, fun s hs base _ baseName name hbase hleads => ?_⟩
  obtain rfl : baseName = base.path.text := Subtype.ext (name_of_mem hbase)
  rw [normalizeName_leads hleads]
  have htable' : table.Perm (files.map fun f => (f.path.text.1, contents f.arg)) := by
    rw [List.map_map] at htable
    exact htable
  have hmap : (table.map Prod.fst).Nodup := by
    refine (htable'.map Prod.fst).nodup_iff.mpr ?_
    rw [List.map_map]
    exact nodup_names hnodup
  have hmemT : (target.path.text.1, target.content) ∈ table :=
    htable'.mem_iff.mpr (List.mem_map.mpr ⟨target, ht, by rw [hcontents target ht]⟩)
  obtain ⟨e, hfirst, hlen, hholds⟩ := first_of_pack hpack hmem hmap hmemT bs.length
  refine ⟨contentAddr mem buf e, hholds, ?_⟩
  rw [← hlen]
  refine jsModuleLoader_first (hs.trans hmounts) hrep hfirst ?_
  rw [hlen]
  exact fun h0 => hne (List.length_eq_zero_iff.mp h0)

/-- Files whose paths are accepted are packed under the names that imports resolve to, and the
loader finds those that are not empty. -/
theorem resolves_of_accepted (files : List Source) (hnodup : (files.map Source.path).Nodup)
    (haccepted : ∀ f ∈ files, isIdealPath f.arg = true) :
    ∃ entries, doPackFiles (files.map Source.arg) = .ok entries ∧
      ∀ target ∈ files, Named files entries target ∧
        (target.content ≠ [] → Found files entries target) :=
  ⟨files.map entryOf, doPackFiles_eq hnodup haccepted, fun _ ht => ⟨named files ht, found hnodup ht⟩⟩

/-- `main.js`, given as it is, and `lib/a.js`, given as `./lib/a.js`. -/
def twoFiles : List Source :=
  [⟨⟨[text "main.js"], by decide, by decide, by decide⟩, false, text "import './lib/a.js'"⟩,
    ⟨⟨[text "lib", text "a.js"], by decide, by decide, by decide⟩, true, text "1;"⟩]

theorem resolves_twoFiles : ∃ entries, doPackFiles (twoFiles.map Source.arg) = .ok entries ∧
    ∀ target ∈ twoFiles, Named twoFiles entries target ∧
      (target.content ≠ [] → Found twoFiles entries target) := by
  refine resolves_of_accepted twoFiles ?_ (by decide +kernel)
  exact List.Nodup.of_map RelPath.components (by decide +kernel)

/-- The file `..a`, which is not in a parent directory. -/
def dotsFile : Source := ⟨⟨[text "..a"], by decide, by decide, by decide⟩, false, text "1;"⟩

/-- The file `a.js`, with nothing in it. -/
def emptyFile : Source := ⟨⟨[text "a.js"], by decide, by decide, by decide⟩, false, []⟩

/-- The archive of `a.js`. -/
def emptyArchive : List Byte :=
  [1, 0, 0, 0, 0, 0, 0, 0, 5, 0, 0, 0, 5, 0, 0, 0, 0, 0, 0, 0, 97, 46, 106, 115, 0, 0]

/-- The loader does not find a file with nothing in it. -/
theorem missing_emptyArchive : (jsModuleLoader (Mem.ofBytes 64 emptyArchive) always
    ⟨text "a.js", by decide⟩ (loadFs (Mem.ofBytes 64 emptyArchive) always 64 26 Fs.init).2).1 =
      .referenceError ⟨text "a.js", by decide⟩ :=
  rfl

/-- `fs.lua` rejects `..a`, and the loader does not find an empty `a.js`. -/
theorem not_resolves : ¬Resolves [dotsFile] ∧ ¬Resolves [emptyFile] := by
  constructor
  · rintro ⟨entries, h, -⟩
    have hpack : doPackFiles ([dotsFile].map Source.arg) = .error _ := rfl
    cases hpack.symm.trans h
  · rintro ⟨entries, h, hall⟩
    obtain rfl : entries = [(text "a.js", text "a.js")] := by
      have hpack : doPackFiles ([emptyFile].map Source.arg) = .ok [(text "a.js", text "a.js")] := rfl
      exact (Except.ok.inj (hpack.symm.trans h)).symm
    obtain ⟨fs, hload, hs⟩ := (hall emptyFile (List.mem_singleton_self _)).2 (fun _ => [])
      (fun f hf => by rw [List.mem_singleton.mp hf]; rfl) [(text "a.js", [])] (List.Perm.refl _) emptyArchive
      (by rfl) (Mem.ofBytes 64 emptyArchive) 64 (by decide) (Mem.holds_ofBytes 64 _) always fun _ _ => rfl
    obtain ⟨buf, -, hl⟩ := hs fs rfl emptyFile (List.mem_singleton_self _) emptyFile.path.text
      ⟨specifier 0 [text "a.js"], by decide⟩ (List.mem_singleton_self _)
      (.climb 0 [text "a.js"] (Nat.zero_le _) (List.cons_ne_nil _ _) rfl)
    have hfs : fs = (loadFs (Mem.ofBytes 64 emptyArchive) always 64 26 Fs.init).2 :=
      (congrArg Prod.snd hload).symm
    rw [hfs] at hl
    have hl := missing_emptyArchive.symm.trans hl
    unfold compile at hl
    split at hl
    · cases hl
    · cases hl

end CkbJs.Proof.Imports
