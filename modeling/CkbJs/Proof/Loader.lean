import CkbJs.Proof.CellFs.Overlay
import CkbJs.Proof.Module.Lookup
import CkbJs.Spec.Loader

/-!
# The loader on mounted archives

A file that is looked up is the topmost of its name (`getFile_mounts`, `jsLoadFile_eq_some_iff`),
and the loader passes on where it is: the right one, unless a second name does not fit into its
buffer or `get_file` lacks memory (`looksUp_iff`). The inputs it gives to the parser end with a
NUL exactly where the files that can be looked up are followed by one (`loadsTerminated_iff`).
-/

namespace CkbJs.Proof.Loader

open CkbJs.Impl CkbJs.Impl.CellFs CkbJs.Impl.Loader CkbJs.Impl.Module CkbJs.Spec.CellFs CkbJs.Spec.Loader
open CkbJs.Spec.Module CkbJs.Proof.CellFs CkbJs.Proof.Module

variable {mem : Mem} {alloc : Alloc} {name : CString} {fs : Fs} {mounted : List Archive}

/-! ## Lookups -/

/-- `get_file` stores the topmost file of the name, or fails; with memory for the result, it
fails only where no archive has the name. -/
theorem getFile_mounts (h : List.Forall₂ (Represents mem) fs.mounts mounted) (name : CString) :
    ((getFile mem alloc name fs).1 = (-1, none) ∧
        (alloc fs.clock sizeofFSFile = true → ∀ a ∈ mounted, ¬a.Has mem name)) ∨
      ∃ a e file, (getFile mem alloc name fs).1 = (0, some file) ∧ alloc fs.clock sizeofFSFile = true ∧
        Topmost mem mounted name a e ∧ file.content = contentAddr mem a.buf e ∧
        file.size = e.content.length := by
  rw [getFile_eq]
  by_cases ha : alloc fs.clock sizeofFSFile = true
  · rw [if_pos ha]
    rcases findFile_topmost h name 0 with ⟨hnone, hall⟩ | ⟨d, a, e, hsome, htop⟩
    · rw [hnone]
      exact .inl ⟨rfl, fun _ => hall⟩
    · rw [hsome]
      exact .inr ⟨a, e, _, rfl, ha, htop, rfl, rfl⟩
  · rw [if_neg ha]
    exact .inl ⟨rfl, fun h => absurd h ha⟩

theorem mounts_getFile (mem : Mem) (alloc : Alloc) (name : CString) (fs : Fs) :
    (getFile mem alloc name fs).2.mounts = fs.mounts := by
  rcases h : getFile mem alloc name fs with ⟨r, s⟩
  exact (getFile_cases h).1

/-- `get_file` makes one allocation. -/
theorem clock_getFile (mem : Mem) (alloc : Alloc) (name : CString) (h : fs.mounts ≠ []) :
    (getFile mem alloc name fs).2.clock = fs.clock + 1 := by
  unfold getFile malloc
  rw [if_neg h]
  by_cases ha : alloc fs.clock sizeofFSFile = true
  · simp only [if_pos ha]
    rcases findFile mem name 0 fs.mounts with ⟨accesses, _ | found⟩
    · rfl
    · rfl
  · simp only [if_neg ha]

/-- Two entries that are first of one name are the same. -/
theorem first_unique {a : Archive} {e e' : FSEntry} (h : a.First mem name e) (h' : a.First mem name e') :
    e = e' := by
  have hfind {e : FSEntry} (h : a.First mem name e) :
      (findEntry mem name 0 (payload mem a.buf) (entries mem a.buf)).2 = some e := findEntry_eq_some.mpr h
  exact Option.some.inj ((hfind h).symm.trans (hfind h'))

theorem first_of_topmost {a : Archive} {e : FSEntry} (h : Topmost mem mounted name a e) :
    a ∈ mounted ∧ a.First mem name e := by
  obtain ⟨newer, older, rfl, hfirst, -⟩ := h
  exact ⟨List.mem_append_right newer List.mem_cons_self, hfirst⟩

/-! ## The loader -/

theorem mounts_jsLoadFile (mem : Mem) (alloc : Alloc) (name : CString) (fs : Fs) :
    (jsLoadFile mem alloc name fs).2.mounts = fs.mounts := by
  have h := mounts_getFile mem alloc name fs
  unfold jsLoadFile
  split
  · rename_i file s hg
    rw [hg] at h
    split
    · exact h
    · exact h
  · rename_i r s hn hg
    rw [hg] at h
    exact h

/-- `js_load_file` makes one allocation, where there is a file system. -/
theorem clock_jsLoadFile (mem : Mem) (alloc : Alloc) (name : CString) (h : fs.mounts ≠ []) :
    (jsLoadFile mem alloc name fs).2.clock = fs.clock + 1 := by
  have h := clock_getFile mem alloc name h
  unfold jsLoadFile
  split
  · rename_i file s hg
    rw [hg] at h
    split
    · exact h
    · exact h
  · rename_i r s hn hg
    rw [hg] at h
    exact h

/-- Two entries that are topmost of one name are the same. -/
theorem topmost_unique {a a' : Archive} {e e' : FSEntry} (h : Topmost mem mounted name a e)
    (h' : Topmost mem mounted name a' e') : a = a' ∧ e = e' := by
  obtain ⟨newer, older, rfl, hfirst, hnewer⟩ := h
  obtain ⟨newer', older', heq, hfirst', hnewer'⟩ := h'
  rcases List.append_eq_append_iff.mp heq with ⟨between, hn, ho⟩ | ⟨between, hn, ho⟩
  · rcases List.cons_eq_append_iff.mp ho with ⟨rfl, ho⟩ | ⟨as, rfl, -⟩
    · cases ho
      exact ⟨rfl, first_unique hfirst hfirst'⟩
    · exact absurd (has_of_first hfirst) (hnewer' a (hn ▸ List.mem_append_right _ List.mem_cons_self))
  · rcases List.cons_eq_append_iff.mp ho with ⟨rfl, ho⟩ | ⟨as, rfl, -⟩
    · cases ho
      exact ⟨rfl, first_unique hfirst hfirst'⟩
    · exact absurd (has_of_first hfirst') (hnewer a' (hn ▸ List.mem_append_right _ List.mem_cons_self))

theorem stored_unique {buf bufLen buf' bufLen' : Nat} (h : Stored mem mounted name buf bufLen)
    (h' : Stored mem mounted name buf' bufLen') : buf = buf' ∧ bufLen = bufLen' := by
  obtain ⟨a, e, htop, rfl, rfl, -⟩ := h
  obtain ⟨a', e', htop', rfl, rfl, -⟩ := h'
  obtain ⟨rfl, rfl⟩ := topmost_unique htop htop'
  exact ⟨rfl, rfl⟩

/-- `js_load_file` gives the content of the topmost file, if it is not empty and there is memory
for the result of `get_file`. -/
theorem jsLoadFile_eq_some_iff {buf bufLen : Nat} (h : List.Forall₂ (Represents mem) fs.mounts mounted) :
    (jsLoadFile mem alloc name fs).1 = some (buf, bufLen) ↔
      alloc fs.clock sizeofFSFile = true ∧ Stored mem mounted name buf bufLen := by
  have hget := @getFile_mounts mem alloc fs mounted h name
  unfold jsLoadFile
  rcases hg : getFile mem alloc name fs with ⟨r, s⟩
  rw [hg] at hget
  rcases hget with ⟨hfail, hnot⟩ | ⟨a, e, file, hok, halloc, htop, hcontent, hsize⟩
  · obtain rfl : r = (-1, none) := hfail
    refine iff_of_false nofun ?_
    rintro ⟨ha, a, e, htop, -⟩
    obtain ⟨hmem, hfirst⟩ := first_of_topmost htop
    exact hnot ha a hmem (has_of_first hfirst)
  · obtain rfl : r = (0, some file) := hok
    show (if file.size = 0 then ((none, s) : Option (Nat × Nat) × Fs) else _).1 = _ ↔ _
    by_cases h0 : file.size = 0
    · rw [if_pos h0]
      refine iff_of_false nofun ?_
      rintro ⟨-, a', e', htop', -, hlen, hne⟩
      obtain ⟨rfl, rfl⟩ := topmost_unique htop htop'
      exact hne (hlen.trans (hsize.symm.trans h0))
    · rw [if_neg h0]
      constructor
      · rintro ⟨⟩
        exact ⟨halloc, a, e, htop, hcontent, hsize, h0⟩
      · rintro ⟨-, hstored⟩
        obtain ⟨rfl, rfl⟩ := stored_unique hstored ⟨a, e, htop, hcontent, hsize, h0⟩
        rfl

/-- What the two `strcpy` store for a name that ends in `.js`. -/
def secondStores (name : CString) : List Nat := strcpy 0 name.1 ++ strcpy (name.1.length - 3) extBc

/-- The second name takes one byte more than it is long. -/
theorem exists_secondStores_iff {name : CString} (h : 3 < name.1.length) (n : Nat) :
    (∃ i ∈ secondStores name, n ≤ i) ↔ n ≤ name.1.length := by
  constructor
  · rintro ⟨i, hi, hle⟩
    rcases List.mem_append.mp hi with hi | hi
    · have := (List.mem_range'_1.mp hi).2
      omega
    · have := (List.mem_range'_1.mp hi).2
      simp only [extBc, List.length_cons, List.length_nil] at this
      omega
  · intro hle
    exact ⟨name.1.length, List.mem_append_left _ (List.mem_range'_1.mpr (by omega)), hle⟩

/-- The loader takes the file of the name, or the one of the second name. -/
theorem jsModuleLoader_eq (mem : Mem) (alloc : Alloc) (name : CString) (fs : Fs) :
    (jsModuleLoader mem alloc name fs).1 = (jsLoadFile mem alloc name fs).1.elim
      (if EndsInJs name then
        if 256 ≤ name.1.length then .overflow
        else (jsLoadFile mem alloc (secondName name) (jsLoadFile mem alloc name fs).2).1.elim
          (.referenceError name) fun p => compile mem p.1 p.2
      else .referenceError name) (fun p => compile mem p.1 p.2) ∧
    (jsModuleLoader mem alloc name fs).2.1 =
      (jsLoadFile mem alloc name fs).1.elim (if EndsInJs name then secondStores name else []) fun _ => [] := by
  have hjs := endsInJs_iff name
  unfold jsModuleLoader
  rcases jsLoadFile mem alloc name fs with ⟨_ | ⟨buf, bufLen⟩, s⟩
  swap
  · exact ⟨rfl, rfl⟩
  dsimp only [Option.elim_none]
  by_cases h3 : name.1.length ≤ 3
  · have hn : ¬EndsInJs name := fun h => absurd h.1 (by omega)
    rw [if_pos h3, if_neg hn, if_neg hn]
    exact ⟨rfl, rfl⟩
  rw [if_neg h3]
  by_cases hext : name.1.drop (name.1.length - 3) = extJs
  swap
  · have hn : ¬EndsInJs name := fun h => hext (hjs.mp h).2
    rw [if_pos hext, if_neg hn, if_neg hn]
    exact ⟨rfl, rfl⟩
  have hy : EndsInJs name := hjs.mpr ⟨by omega, hext⟩
  rw [if_neg (not_not_intro hext), if_pos hy, if_pos hy]
  by_cases hlen : 256 ≤ name.1.length
  · have hover : ∃ i ∈ secondStores name, secendNameSize ≤ i := (exists_secondStores_iff hy.1 256).mpr hlen
    rw [if_pos hlen, if_pos (show ∃ i ∈ strcpy 0 name.1 ++ _, _ from hover)]
    exact ⟨rfl, rfl⟩
  · have hover : ¬∃ i ∈ secondStores name, secendNameSize ≤ i := mt (exists_secondStores_iff hy.1 256).mp hlen
    rw [if_neg hlen, if_neg (show ¬∃ i ∈ strcpy 0 name.1 ++ _, _ from hover)]
    rcases jsLoadFile mem alloc (secondName name) s with ⟨_ | ⟨buf, bufLen⟩, s'⟩
    · exact ⟨rfl, rfl⟩
    · exact ⟨rfl, rfl⟩

/-- The names that end in `.js` are those with a second name. -/
theorem replaces_iff {name other : CString} : Replaces name other ↔ EndsInJs name ∧ other = secondName name := by
  constructor
  · rintro ⟨stem, hne, hname, hother⟩
    have hpos := List.length_pos_iff.mpr hne
    have hlen : name.1.length = stem.length + 3 := by rw [hname, List.length_append]; rfl
    refine ⟨⟨by omega, stem, hname.symm⟩, Subtype.ext ?_⟩
    show other.1 = name.1.take (name.1.length - 3) ++ extBc
    rw [hother, hlen, hname, Nat.add_sub_cancel, List.take_left]
    rfl
  · rintro ⟨⟨hlen, stem, hname⟩, rfl⟩
    have hstem : name.1.length = stem.length + 3 := by rw [← hname, List.length_append]; rfl
    refine ⟨stem, fun h => ?_, hname.symm, ?_⟩
    · rw [h] at hstem
      exact absurd hlen (by rw [hstem]; decide)
    · show name.1.take (name.1.length - 3) ++ extBc = _
      rw [hstem, ← hname, Nat.add_sub_cancel, List.take_left]
      rfl

theorem takes_compile_iff {buf bufLen buf' bufLen' : Nat} :
    Takes mem (compile mem buf bufLen) buf' bufLen' ↔ buf = buf' ∧ bufLen = bufLen' := by
  unfold Takes compile
  constructor
  · intro h
    split at h
    · split at h
      · cases h; exact ⟨rfl, rfl⟩
      · cases h
    · split at h
      · cases h
      · cases h; exact ⟨rfl, rfl⟩
  · rintro ⟨rfl, rfl⟩
    split
    · exact if_pos ‹_›
    · exact if_neg ‹_›

theorem not_takes_referenceError {buf bufLen : Nat} : ¬Takes mem (.referenceError name) buf bufLen := by
  unfold Takes
  split <;> exact nofun

/-- What a lookup of a second name comes to. -/
def secondLoading (mem : Mem) (alloc : Alloc) (name : CString) (fs : Fs) : Option (Nat × Nat) :=
  (jsLoadFile mem alloc (secondName name) (jsLoadFile mem alloc name fs).2).1

/-- The lookup of the second name is one of the same archives, a moment later. -/
theorem secondLoading_eq_some_iff {buf bufLen : Nat} (h : List.Forall₂ (Represents mem) fs.mounts mounted) :
    secondLoading mem alloc name fs = some (buf, bufLen) ↔
      alloc (fs.clock + 1) sizeofFSFile = true ∧ Stored mem mounted (secondName name) buf bufLen := by
  have hmounts := mounts_jsLoadFile mem alloc name fs
  rw [secondLoading, jsLoadFile_eq_some_iff (hmounts ▸ h)]
  refine and_congr_left fun ⟨a, e, htop, _⟩ => ?_
  have hne : fs.mounts ≠ [] := fun h0 => by
    rw [h0] at h
    cases h
    exact absurd (first_of_topmost htop).1 List.not_mem_nil
  rw [clock_jsLoadFile mem alloc name hne]

/-! ### By what is found -/

section

variable {s : Session} (h : List.Forall₂ (Represents mem) s.fs.mounts s.mounted)

include h

theorem lacks_of_none (hf : (jsLoadFile mem alloc name s.fs).1 = none) {buf bufLen : Nat}
    (hs : Stored mem s.mounted name buf bufLen) : ¬alloc s.fs.clock sizeofFSFile = true := by
  intro ha
  rw [(jsLoadFile_eq_some_iff h).mpr ⟨ha, hs⟩] at hf
  cases hf

/-- The file of the name is found. -/
theorem looksUp_iff_of_first {p : Nat × Nat} (hf : (jsLoadFile mem alloc name s.fs).1 = some p) :
    LooksUp mem alloc s name ↔ LooksUpWhen mem alloc s name := by
  obtain ⟨hload, hstores⟩ := jsModuleLoader_eq mem alloc name s.fs
  obtain ⟨halloc, hstored⟩ := (jsLoadFile_eq_some_iff h).mp hf
  rw [hf] at hload hstores
  refine iff_of_true ⟨fun buf bufLen hs => ?_, fun hno => absurd hstored (hno _ _),
    fun hno => absurd hstored (hno _ _), fun i hi => ?_⟩
    ⟨fun _ _ _ => .inl halloc, fun hno => absurd hstored (hno _ _)⟩
  · rw [hload]
    exact takes_compile_iff.mpr (stored_unique hstored hs)
  · rw [hstores] at hi
    exact absurd hi List.not_mem_nil

/-- It is not, and there is no second name. -/
theorem looksUp_iff_of_not_endsInJs (hf : (jsLoadFile mem alloc name s.fs).1 = none) (hjs : ¬EndsInJs name) :
    LooksUp mem alloc s name ↔ LooksUpWhen mem alloc s name := by
  obtain ⟨hload, hstores⟩ := jsModuleLoader_eq mem alloc name s.fs
  have hnot (other : CString) : ¬Replaces name other := fun hr => hjs (replaces_iff.mp hr).1
  rw [hf, Option.elim_none, if_neg hjs] at hload hstores
  constructor
  · intro hl
    refine ⟨fun buf bufLen hs => ?_, fun _ other hr => absurd hr (hnot other)⟩
    exact absurd (hload ▸ hl.first buf bufLen hs) not_takes_referenceError
  · intro hw
    have hno (buf bufLen : Nat) : ¬Stored mem s.mounted name buf bufLen := fun hs =>
      (hw.first buf bufLen hs).elim (lacks_of_none h hf hs) fun ⟨other, hr, _⟩ => hnot other hr
    refine ⟨fun buf bufLen hs => absurd hs (hno buf bufLen), fun _ other hr => absurd hr (hnot other),
      fun _ _ => hload, fun i hi => ?_⟩
    rw [hstores] at hi
    exact absurd hi List.not_mem_nil

/-- The second name does not fit: it is stored outside, and the condition says so. -/
theorem looksUp_iff_of_long (hf : (jsLoadFile mem alloc name s.fs).1 = none) (hjs : EndsInJs name)
    (hlen : 256 ≤ name.1.length) : LooksUp mem alloc s name ↔ LooksUpWhen mem alloc s name := by
  have hstores := (jsModuleLoader_eq mem alloc name s.fs).2
  rw [hf, Option.elim_none, if_pos hjs] at hstores
  refine iff_of_false (fun hl => ?_) fun hw => ?_
  · obtain ⟨i, hi, hle⟩ := (exists_secondStores_iff hjs.1 256).mpr hlen
    exact absurd (hl.stores i (hstores ▸ hi)) (Nat.not_lt.mpr hle)
  · by_cases hs : ∃ buf bufLen, Stored mem s.mounted name buf bufLen
    · obtain ⟨buf, bufLen, hs⟩ := hs
      rcases hw.first buf bufLen hs with ha | ⟨other, -, hlt, -⟩
      · exact lacks_of_none h hf hs ha
      · omega
    · have := (hw.second (fun buf bufLen hs' => hs ⟨buf, bufLen, hs'⟩) _ (replaces_iff.mpr ⟨hjs, rfl⟩)).1
      omega

omit h in
/-- A second name that fits: what is loaded, and where it is stored. -/
theorem jsModuleLoader_second (hf : (jsLoadFile mem alloc name s.fs).1 = none) (hjs : EndsInJs name)
    (hlt : name.1.length < 256) :
    (jsModuleLoader mem alloc name s.fs).1 =
        (secondLoading mem alloc name s.fs).elim (.referenceError name) (fun p => compile mem p.1 p.2) ∧
      ∀ i ∈ (jsModuleLoader mem alloc name s.fs).2.1, i < 256 := by
  obtain ⟨hload, hstores⟩ := jsModuleLoader_eq mem alloc name s.fs
  rw [hf, Option.elim_none, if_pos hjs] at hload hstores
  rw [if_neg (Nat.not_le.mpr hlt)] at hload
  refine ⟨hload, fun i hi => Nat.lt_of_not_le fun hle => ?_⟩
  rw [hstores] at hi
  exact Nat.not_le.mpr hlt ((exists_secondStores_iff hjs.1 256).mp ⟨i, hi, hle⟩)

/-- The file of the second name is found. -/
theorem looksUp_iff_of_second (hf : (jsLoadFile mem alloc name s.fs).1 = none) (hjs : EndsInJs name)
    (hlt : name.1.length < 256) {p : Nat × Nat} (hl₂ : secondLoading mem alloc name s.fs = some p) :
    LooksUp mem alloc s name ↔ LooksUpWhen mem alloc s name := by
  obtain ⟨hload, hinside⟩ := jsModuleLoader_second hf hjs hlt
  obtain ⟨halloc, hstored⟩ := (secondLoading_eq_some_iff h).mp hl₂
  have hrepl : Replaces name (secondName name) := replaces_iff.mpr ⟨hjs, rfl⟩
  rw [hl₂] at hload
  constructor
  · intro hl
    refine ⟨fun buf bufLen hs => .inr ⟨_, hrepl, hlt, ?_, halloc⟩, fun _ other hr => ⟨hlt, fun _ _ _ => halloc⟩⟩
    obtain ⟨rfl, rfl⟩ := takes_compile_iff.mp (hload ▸ hl.first buf bufLen hs)
    exact hstored
  · intro hw
    refine ⟨fun buf bufLen hs => ?_, fun _ other hr buf bufLen hs => ?_, fun _ hno => ?_, hinside⟩
    · rcases hw.first buf bufLen hs with ha | ⟨other, hr, -, hs', -⟩
      · exact absurd ha (lacks_of_none h hf hs)
      · rw [(replaces_iff.mp hr).2] at hs'
        rw [hload]
        exact takes_compile_iff.mpr (stored_unique hstored hs')
    · rw [(replaces_iff.mp hr).2] at hs
      rw [hload]
      exact takes_compile_iff.mpr (stored_unique hstored hs)
    · exact absurd hstored (hno _ hrepl _ _)

/-- Neither file is found. -/
theorem looksUp_iff_of_none (hf : (jsLoadFile mem alloc name s.fs).1 = none) (hjs : EndsInJs name)
    (hlt : name.1.length < 256) (hl₂ : secondLoading mem alloc name s.fs = none) :
    LooksUp mem alloc s name ↔ LooksUpWhen mem alloc s name := by
  obtain ⟨hload, hinside⟩ := jsModuleLoader_second hf hjs hlt
  have hlacks₂ {buf bufLen : Nat} (hs : Stored mem s.mounted (secondName name) buf bufLen) :
      ¬alloc (s.fs.clock + 1) sizeofFSFile = true := by
    intro ha
    rw [(secondLoading_eq_some_iff h).mpr ⟨ha, hs⟩] at hl₂
    cases hl₂
  rw [hl₂] at hload
  constructor
  · intro hl
    have hno (buf bufLen : Nat) : ¬Stored mem s.mounted name buf bufLen := fun hs =>
      absurd (hload ▸ hl.first buf bufLen hs) not_takes_referenceError
    refine ⟨fun buf bufLen hs => absurd hs (hno buf bufLen), fun _ other hr => ⟨hlt, fun buf bufLen hs => ?_⟩⟩
    exact absurd (hload ▸ hl.second hno other hr buf bufLen hs) not_takes_referenceError
  · intro hw
    have hno (buf bufLen : Nat) : ¬Stored mem s.mounted name buf bufLen := by
      intro hs
      rcases hw.first buf bufLen hs with ha | ⟨other, hr, -, hs', ha⟩
      · exact lacks_of_none h hf hs ha
      · rw [(replaces_iff.mp hr).2] at hs'
        exact hlacks₂ hs' ha
    have hno₂ (other : CString) (hr : Replaces name other) (buf bufLen : Nat) :
        ¬Stored mem s.mounted other buf bufLen := by
      intro hs
      have ha := (hw.second hno other hr).2 buf bufLen hs
      rw [(replaces_iff.mp hr).2] at hs
      exact hlacks₂ hs ha
    exact ⟨fun buf bufLen hs => absurd hs (hno buf bufLen),
      fun _ other hr buf bufLen hs => absurd hs (hno₂ other hr buf bufLen), fun _ _ => hload, hinside⟩

/-- A lookup comes out right exactly under the condition, whatever is mounted. -/
theorem looksUp_iff_of_represents : LooksUp mem alloc s name ↔ LooksUpWhen mem alloc s name := by
  cases hf : (jsLoadFile mem alloc name s.fs).1 with
  | some p => exact looksUp_iff_of_first h hf
  | none =>
    by_cases hjs : EndsInJs name
    swap
    · exact looksUp_iff_of_not_endsInJs h hf hjs
    by_cases hlen : 256 ≤ name.1.length
    · exact looksUp_iff_of_long h hf hjs hlen
    have hlt : name.1.length < 256 := Nat.lt_of_not_le hlen
    cases hl₂ : secondLoading mem alloc name s.fs with
    | some p => exact looksUp_iff_of_second h hf hjs hlt hl₂
    | none => exact looksUp_iff_of_none h hf hjs hlt hl₂

end

/-- After any calls of `load_fs` and `get_file`, `js_module_loader` takes the right file of a name
and stays inside `secend_name` exactly under the condition. -/
theorem looksUp_iff (mem : Mem) (alloc : Alloc) (cs : List Call) (name : CString) :
    LooksUp mem alloc (Session.init.run mem alloc cs) name ↔
      LooksUpWhen mem alloc (Session.init.run mem alloc cs) name :=
  looksUp_iff_of_represents (represents_run .nil cs)

/-- A name of 256 characters, with its `.js`. -/
def longName : CString :=
  ⟨List.replicate 253 97 ++ extJs, fun h => (List.mem_append.mp h).elim
    (fun h => absurd (List.eq_of_mem_replicate h) (by decide)) (by decide)⟩

/-- The second name for it ends with a byte behind the buffer, where it is not in the archives. -/
theorem not_looksUp : ¬LooksUp (fun _ => 0) always Session.init longName := by
  intro h
  have hlen : longName.1.length = 256 := by
    show (List.replicate 253 97 ++ extJs).length = 256
    rw [List.length_append, List.length_replicate]
    rfl
  have hjs : EndsInJs longName := ⟨by rw [hlen]; decide, List.suffix_append _ _⟩
  have hstores := (jsModuleLoader_eq (fun _ => 0) always longName Session.init.fs).2
  have hnone : (jsLoadFile (fun _ => 0) always longName Session.init.fs).1 = none := rfl
  rw [hnone, Option.elim_none, if_pos hjs] at hstores
  obtain ⟨i, hi, hle⟩ := (exists_secondStores_iff hjs.1 256).mpr (Nat.le_of_eq hlen.symm)
  exact absurd (h.stores i (hstores ▸ hi)) (Nat.not_lt.mpr hle)

/-! ## The inputs of the parser -/

/-- An input of the parser is the content of a file that can be looked up. -/
theorem eval_jsModuleLoader {call : EvalCall} (h : List.Forall₂ (Represents mem) fs.mounts mounted)
    (hload : (jsModuleLoader mem alloc name fs).1 = .eval call) :
    ∃ file a e, Topmost mem mounted file a e ∧ IsSource mem a e ∧
      call = ⟨mem, contentAddr mem a.buf e, e.content.length⟩ := by
  have hcompile {file : CString} {buf bufLen : Nat} (hs : Stored mem mounted file buf bufLen)
      (hc : compile mem buf bufLen = .eval call) : ∃ file a e, Topmost mem mounted file a e ∧
        IsSource mem a e ∧ call = ⟨mem, contentAddr mem a.buf e, e.content.length⟩ := by
    obtain ⟨a, e, htop, rfl, rfl, hne⟩ := hs
    unfold compile at hc
    split at hc
    · cases hc
    · rename_i hbc
      exact ⟨file, a, e, htop, ⟨hne, hbc⟩, (Loading.eval.inj hc).symm⟩
  rw [(jsModuleLoader_eq mem alloc name fs).1, ← secondLoading] at hload
  cases hf : (jsLoadFile mem alloc name fs).1 with
  | some p =>
    rw [hf] at hload
    exact hcompile ((jsLoadFile_eq_some_iff h).mp hf).2 hload
  | none =>
    rw [hf, Option.elim_none] at hload
    split at hload
    · split at hload
      · cases hload
      · cases hl₂ : secondLoading mem alloc name fs with
        | some p =>
          rw [hl₂] at hload
          exact hcompile ((secondLoading_eq_some_iff h).mp hl₂).2 hload
        | none =>
          rw [hl₂] at hload
          cases hload
    · cases hload

/-- With memory to spare, a file that can be looked up is loaded, if it is not empty. -/
theorem jsModuleLoader_first {a : Archive} {e : FSEntry} {m : Mount} (hm : fs.mounts = [m])
    (hr : Represents mem m a) (hfirst : a.First mem name e) (hne : e.content.length ≠ 0) :
    (jsModuleLoader mem always name fs).1 = compile mem (contentAddr mem a.buf e) e.content.length := by
  have hreps : List.Forall₂ (Represents mem) fs.mounts [a] := by
    rw [hm]
    exact .cons hr .nil
  have hstored : Stored mem [a] name (contentAddr mem a.buf e) e.content.length :=
    ⟨a, e, ⟨[], [], rfl, hfirst, fun _ h => absurd h List.not_mem_nil⟩, rfl, rfl, hne⟩
  rw [(jsModuleLoader_eq mem always name fs).1, (jsLoadFile_eq_some_iff hreps).mpr ⟨rfl, hstored⟩]
  rfl

/-- What is mounted is from the set. -/
theorem mounted_of_run {S : Archive → Prop} {s : Session} {cs : List Call}
    (hs : ∀ a ∈ s.mounted, S a ∧ a.buf ≠ 0) (hcs : ∀ a, .loadFs a ∈ cs → S a) :
    ∀ a ∈ (s.run mem alloc cs).mounted, S a ∧ a.buf ≠ 0 := by
  induction cs generalizing s with
  | nil => exact hs
  | cons c cs ih =>
    refine ih ?_ fun a ha => hcs a (List.mem_cons_of_mem c ha)
    cases c with
    | getFile name => exact hs
    | loadFs b =>
      by_cases h0 : b.buf = 0
      · rw [step_null h0]
        exact hs
      · obtain ⟨ret, fs, -, hstep⟩ := step_loadFs mem alloc b s
        rw [hstep]
        dsimp only
        split
        · exact List.forall_mem_cons.mpr ⟨⟨hcs b List.mem_cons_self, h0⟩, hs⟩
        · exact hs

/-- The inputs of the parser end with a NUL, whatever archives of a set are mounted, exactly
where every source in the archives that can be looked up has a NUL behind it. -/
theorem loadsTerminated_iff (mem : Mem) (S : Archive → Prop) :
    LoadsTerminated mem S ↔ ∀ a, S a → a.buf ≠ 0 → AllFollowed mem a := by
  constructor
  · intro h a ha h0 name e hfirst hsource
    obtain ⟨fs, m, hload, hmounts, hrep, -⟩ := loadFs_always mem h0 { Session.init.fs with log := [] }
    have hrun : Session.init.run mem always [.loadFs a] = ⟨fs, [a]⟩ := by
      show Session.init.step mem always (.loadFs a) = _
      unfold Session.step
      dsimp only
      rw [hload]
      rfl
    have hcall := h always [.loadFs a] (fun b hb => by
      rw [List.mem_singleton] at hb
      cases hb
      exact ha) name
    rw [hrun] at hcall
    have hload : compile mem (contentAddr mem a.buf e) e.content.length = .eval _ := if_neg hsource.2
    obtain ⟨b, hb, ht⟩ := hcall _ ((jsModuleLoader_first hmounts hrep hfirst hsource.1).trans hload)
    rwa [List.mem_singleton.mp hb] at ht
  · intro h alloc cs hcs name call hload
    have hreps := @represents_run mem alloc Session.init .nil cs
    obtain ⟨file, a, e, htop, hsource, rfl⟩ := eval_jsModuleLoader hreps hload
    obtain ⟨ha, hfirst⟩ := first_of_topmost htop
    obtain ⟨hS, h0⟩ := mounted_of_run (s := Session.init) (fun a ha => absurd ha List.not_mem_nil) hcs a ha
    exact ⟨a, ha, h a hS h0 file e hfirst hsource⟩

end CkbJs.Proof.Loader
