import CkbJs.Proof.CellFs.Lookup

/-!
# Memory bounds of mounted archives

Every run over safe archives stays inside them: the mounts of a session
represent safe archives (`Inv`), every call keeps that (`inv_step`) and stays
in bounds (`step_within`). Conversely an archive that is not safe has a run
of two calls that leaves it, so that `archive_bounds_iff` characterizes the
archives `load_fs` would have to reject.
-/

namespace CkbJs.Proof.CellFs

open CkbJs.Impl CkbJs.Impl.CellFs CkbJs.Spec.CellFs

variable {mem : Mem} {alloc : Alloc}

/-- The mounts of a session are those of its archives, which are safe. -/
structure Inv (mem : Mem) (s : Session) : Prop where
  represents : List.Forall₂ (Represents mem) s.fs.mounts s.mounted
  safe : ∀ a ∈ s.mounted, Safe mem a

theorem inv_init : Inv mem Session.init := ⟨.nil, nofun⟩

/-! ## What the calls do -/

/-- `malloc` changes neither the mounts nor the log. -/
theorem malloc_keeps {size : Nat} {s s' : Fs} {r : Option Nat} (h : malloc alloc size s = (r, s')) :
    s'.mounts = s.mounts ∧ s'.log = s.log := by
  unfold malloc at h
  split at h <;> cases h <;> exact ⟨rfl, rfl⟩

/-- A read of `load_fs`: the count or the entries. -/
def TableRead (mem : Mem) (a : Archive) (x : Access) : Prop :=
  x = .table a.buf 4 ∨ x = .table (a.buf + 4) (sizeofFSEntry * count mem a.buf)

/-- `load_fs` either fails and mounts nothing, or mounts the archive; it reads
the count and the entries only. -/
theorem loadFs_cases {a : Archive} {s s' : Fs} {ret : Int}
    (h : loadFs mem alloc a.buf a.buflen s = (ret, s')) :
    (ret = -1 ∧ s'.mounts = s.mounts ∨
      ret = 0 ∧ ∃ m, s'.mounts = m :: s.mounts ∧ Represents mem m a) ∧
    ∃ reads, s'.log = s.log ++ reads ∧ ∀ x ∈ reads, TableRead mem a x := by
  unfold loadFs at h
  split at h
  · cases h
    exact ⟨.inl ⟨rfl, rfl⟩, [], by simp, nofun⟩
  split at h
  · rename_i s₁ h₁
    cases h
    obtain ⟨hm, hl⟩ := malloc_keeps h₁
    exact ⟨.inl ⟨rfl, hm⟩, [], by simp [hl], nofun⟩
  rename_i node s₁ h₁
  obtain ⟨hm₁, hl₁⟩ := malloc_keeps h₁
  split at h
  · rename_i s₂ h₂
    cases h
    obtain ⟨hm₂, hl₂⟩ := malloc_keeps h₂
    exact ⟨.inl ⟨rfl, hm₂.trans hm₁⟩, [], by simp [Fs.free, hl₂, hl₁], nofun⟩
  rename_i newfs s₂ h₂
  obtain ⟨hm₂, hl₂⟩ := malloc_keeps h₂
  dsimp only at h
  split at h
  · rename_i h0
    cases h
    refine ⟨.inr ⟨rfl, _, by rw [← hm₁, ← hm₂]; rfl, ?_, fun h => absurd rfl h⟩,
      [.table a.buf 4], by simp [Fs.logged, hl₂, hl₁], fun x hx => .inl (List.mem_singleton.mp hx)⟩
    rw [entries, h0]; rfl
  split at h
  · rename_i s₃ h₃
    cases h
    obtain ⟨hm₃, hl₃⟩ := malloc_keeps h₃
    refine ⟨.inl ⟨rfl, hm₃.trans (hm₂.trans hm₁)⟩, [.table a.buf 4], ?_,
      fun x hx => .inl (List.mem_singleton.mp hx)⟩
    simp [Fs.free, hl₃, Fs.logged, hl₂, hl₁]
  · rename_i files s₃ h₃
    cases h
    obtain ⟨hm₃, hl₃⟩ := malloc_keeps h₃
    refine ⟨.inr ⟨rfl, _, congrArg _ (hm₃.trans (hm₂.trans hm₁)), rfl, fun _ => rfl⟩,
      [.table a.buf 4, .table (a.buf + 4) (sizeofFSEntry * count mem a.buf)], ?_, ?_⟩
    · simp [Fs.logged, hl₃, hl₂, hl₁]
    · intro x hx
      rcases List.mem_cons.mp hx with hx | hx
      · exact .inl hx
      · exact .inr (List.mem_singleton.mp hx)

/-- `get_file` mounts nothing; it reads what the loop over the mounts reads,
and returns the content of the entry found. -/
theorem getFile_cases {name : CString} {s s' : Fs} {r : Int × Option FSFile}
    (h : getFile mem alloc name s = (r, s')) : s'.mounts = s.mounts ∧
    ∃ accesses, s'.log = s.log ++ accesses ∧ ∀ x ∈ accesses,
      x ∈ (findFile mem name 0 s.mounts).1 ∨
      ∃ d start e, (findFile mem name 0 s.mounts).2 = some (d, start, e) ∧
        x = .content d (start + e.content.offset) e.content.length := by
  unfold getFile at h
  split at h
  · cases h
    exact ⟨rfl, [], by simp, nofun⟩
  split at h
  · rename_i s₁ h₁
    cases h
    obtain ⟨hm, hl⟩ := malloc_keeps h₁
    exact ⟨hm, [], by simp [hl], nofun⟩
  rename_i file s₁ h₁
  obtain ⟨hm, hl⟩ := malloc_keeps h₁
  rw [hm] at h
  split at h
  · rename_i accesses d start e hf
    cases h
    refine ⟨hm, _, congrArg (· ++ _) hl, fun x hx => ?_⟩
    rw [hf]
    rcases List.mem_append.mp hx with hx | hx
    · exact .inl hx
    · exact .inr ⟨d, start, e, rfl, List.mem_singleton.mp hx⟩
  · rename_i accesses hf
    cases h
    refine ⟨hm, _, congrArg (· ++ _) hl, fun x hx => .inl ?_⟩
    rw [hf]
    exact hx

/-! ## Runs over safe archives -/

/-- The archive of a mount. -/
theorem represents_getElem? {ms : List Mount} {as : List Archive} {i : Nat} {m : Mount}
    (h : List.Forall₂ (Represents mem) ms as) (hm : ms[i]? = some m) :
    ∃ a, as[i]? = some a ∧ Represents mem m a := by
  induction h generalizing i with
  | nil => nomatch hm
  | cons hr _ ih =>
    cases i with
    | zero => cases hm; exact ⟨_, rfl, hr⟩
    | succ i => exact ih hm

/-- The archive of a mount that has an entry, and where its names start. -/
theorem Inv.archive {s : Session} (hs : Inv mem s) {i : Nat} {m : Mount} (hm : s.fs.mounts[i]? = some m)
    {e : FSEntry} (he : e ∈ m.current.files) : ∃ a, s.mounted[i]? = some a ∧ Safe mem a ∧
      m.current.files = entries mem a.buf ∧ m.current.start = payload mem a.buf := by
  obtain ⟨a, ha, hf, hp⟩ := represents_getElem? hs.represents hm
  exact ⟨a, ha, hs.safe a (List.mem_of_getElem? ha), hf, hp (List.ne_nil_of_mem he)⟩

theorem buf_le_payload (mem : Mem) (buf : Nat) : buf ≤ payload mem buf := by unfold payload; omega

/-- A name is read inside a safe archive. -/
theorem contains_name {a : Archive} (ha : Safe mem a) {e : FSEntry} (he : e ∈ entries mem a.buf)
    (name : CString) :
    a.Contains (nameAddr mem a.buf e) (strcmp mem name.1 (nameAddr mem a.buf e)).1 := by
  obtain ⟨k, hk, h0⟩ := ha.names e he
  have hle := strcmp_reads_le name.2 h0
  have hbuf : a.buf ≤ nameAddr mem a.buf e := Nat.le_trans (buf_le_payload _ _) (Nat.le_add_right ..)
  exact ⟨hbuf, by omega⟩

theorem contains_tableRead {a : Archive} (ha : Safe mem a) {x : Access} (hx : TableRead mem a x)
    (mounted : List Archive) : Within (some a) mounted x := by
  have h4 := ha.header
  have ht := ha.table
  rcases hx with rfl | rfl
  · exact ⟨a, rfl, Nat.le_refl _, by omega⟩
  · exact ⟨a, rfl, by omega, by omega⟩

theorem step_loadFs (mem : Mem) (alloc : Alloc) (a : Archive) (s : Session) : ∃ ret fs,
    loadFs mem alloc a.buf a.buflen { s.fs with log := [] } = (ret, fs) ∧
    s.step mem alloc (.loadFs a) = ⟨fs, if ret = 0 then a :: s.mounted else s.mounted⟩ :=
  ⟨_, _, rfl, rfl⟩

theorem step_getFile (mem : Mem) (alloc : Alloc) (name : CString) (s : Session) : ∃ r fs,
    getFile mem alloc name { s.fs with log := [] } = (r, fs) ∧
    s.step mem alloc (.getFile name) = ⟨fs, s.mounted⟩ :=
  ⟨_, _, rfl, rfl⟩

/-- Mounting a null buffer does nothing. -/
theorem step_null {a : Archive} (h : a.buf = 0) (s : Session) :
    s.step mem alloc (.loadFs a) = ⟨{ s.fs with log := [] }, s.mounted⟩ := by
  obtain ⟨ret, fs, hr, hstep⟩ := step_loadFs mem alloc a s
  unfold loadFs at hr
  rw [if_pos h] at hr
  cases hr
  exact hstep

/-- A call that mounts only a safe archive stays in bounds. -/
theorem step_within {s : Session} {c : Call} (hs : Inv mem s)
    (hc : ∀ a, c = .loadFs a → a.buf ≠ 0 → Safe mem a) :
    ∀ x ∈ (s.step mem alloc c).fs.log, Within c.archive s.mounted x := by
  intro x hx
  cases c with
  | loadFs a =>
    by_cases h0 : a.buf = 0
    · rw [step_null h0] at hx
      nomatch hx
    · obtain ⟨ret, fs, hr, hstep⟩ := step_loadFs mem alloc a s
      obtain ⟨-, reads, hlog, hreads⟩ := loadFs_cases hr
      rw [hstep] at hx
      exact contains_tableRead (hc a rfl h0) (hreads x (by rwa [hlog] at hx)) s.mounted
  | getFile name =>
    obtain ⟨r, fs, hr, hstep⟩ := step_getFile mem alloc name s
    obtain ⟨-, accesses, hlog, ha⟩ := getFile_cases hr
    rw [hstep] at hx
    rcases ha x (by rwa [hlog] at hx) with hf | ⟨d, start, e, hf, rfl⟩
    · obtain ⟨i, m, hm, hx⟩ := mem_findFile hf
      obtain ⟨e, he, rfl⟩ := mem_findEntry hx
      obtain ⟨a, ha, hsafe, hfiles, hstart⟩ := hs.archive hm he
      rw [nameRead, hstart]
      exact ⟨a, by rw [Nat.zero_add]; exact ha, contains_name hsafe (hfiles ▸ he) name⟩
    · obtain ⟨i, m, hm, rfl, rfl, he⟩ := findFile_some hf
      obtain ⟨before, after, hsplit, hat, hbefore⟩ := findEntry_eq_some.mp he
      obtain ⟨a, ha, hsafe, hfiles, hstart⟩ := hs.archive hm (e := e) (by rw [hsplit]; simp)
      rw [hstart] at hat hbefore ⊢
      refine ⟨a, by rw [Nat.zero_add]; exact ha, hsafe.contents name e ?_⟩
      exact ⟨before, after, hfiles.symm.trans hsplit, hat, hbefore⟩

/-- A call keeps the mounts those of the mounted archives. -/
theorem represents_step {s : Session} (h : List.Forall₂ (Represents mem) s.fs.mounts s.mounted) (c : Call) :
    List.Forall₂ (Represents mem) (s.step mem alloc c).fs.mounts (s.step mem alloc c).mounted := by
  cases c with
  | loadFs a =>
    obtain ⟨ret, fs, hr, hstep⟩ := step_loadFs mem alloc a s
    rw [hstep]
    rcases (loadFs_cases hr).1 with ⟨rfl, hm⟩ | ⟨rfl, m, hm, hrep⟩
    · exact hm ▸ h
    · exact hm ▸ .cons hrep h
  | getFile name =>
    obtain ⟨r, fs, hr, hstep⟩ := step_getFile mem alloc name s
    rw [hstep]
    exact (getFile_cases hr).1 ▸ h

/-- A call that mounts only a safe archive keeps the invariant. -/
theorem inv_step {s : Session} {c : Call} (hs : Inv mem s)
    (hc : ∀ a, c = .loadFs a → a.buf ≠ 0 → Safe mem a) : Inv mem (s.step mem alloc c) := by
  refine ⟨represents_step hs.represents c, ?_⟩
  cases c with
  | loadFs a =>
    by_cases h0 : a.buf = 0
    · rw [step_null h0]
      exact hs.safe
    · obtain ⟨ret, fs, hr, hstep⟩ := step_loadFs mem alloc a s
      rw [hstep]
      rcases (loadFs_cases hr).1 with ⟨rfl, -⟩ | ⟨rfl, -⟩
      · exact hs.safe
      · exact List.forall_mem_cons.mpr ⟨hc a rfl h0, hs.safe⟩
  | getFile name =>
    obtain ⟨r, fs, hr, hstep⟩ := step_getFile mem alloc name s
    rw [hstep]
    exact hs.safe

/-- A run that mounts only safe archives stays in bounds. -/
theorem inBoundsRun_of_safe {cs : List Call} {s : Session} (hs : Inv mem s)
    (hc : ∀ a, .loadFs a ∈ cs → a.buf ≠ 0 → Safe mem a) : InBoundsRun mem alloc cs s := by
  induction cs generalizing s with
  | nil => trivial
  | cons c cs ih =>
    have hstep : ∀ a, c = .loadFs a → a.buf ≠ 0 → Safe mem a :=
      fun a ha => hc a (ha ▸ List.mem_cons_self)
    refine ⟨step_within hs hstep, ih (inv_step hs hstep) fun a ha => ?_⟩
    exact hc a (List.mem_cons_of_mem c ha)

/-! ## Archives that are not safe -/

/-- The allocator that never fails. -/
abbrev always : Alloc := fun _ _ => true

/-- With memory to spare, `load_fs` mounts the archive and reads its table. -/
theorem loadFs_always (mem : Mem) {a : Archive} (h : a.buf ≠ 0) (s : Fs) : ∃ fs m,
    loadFs mem always a.buf a.buflen s = (0, fs) ∧ fs.mounts = m :: s.mounts ∧
    Represents mem m a ∧ .table a.buf 4 ∈ fs.log ∧
    (count mem a.buf ≠ 0 → .table (a.buf + 4) (sizeofFSEntry * count mem a.buf) ∈ fs.log) := by
  have hm (size : Nat) (s : Fs) : malloc always size s = (some s.nextBlock,
      { s with clock := s.clock + 1, live := s.nextBlock :: s.live, nextBlock := s.nextBlock + 1 }) :=
    rfl
  unfold loadFs
  rw [if_neg h]
  simp only [hm]
  split
  · rename_i h0
    exact ⟨_, _, rfl, rfl, ⟨by rw [entries, h0]; rfl, fun h => absurd rfl h⟩,
      by simp [Fs.logged], fun h => absurd h0 h⟩
  · exact ⟨_, _, rfl, rfl, ⟨rfl, fun _ => rfl⟩, by simp [Fs.logged], fun _ => by simp [Fs.logged]⟩

/-- With memory to spare, `get_file` makes all the reads of its loops. -/
theorem getFile_always (mem : Mem) (name : CString) {s : Fs} (h : s.mounts ≠ []) :
    (∀ x ∈ (findFile mem name 0 s.mounts).1, x ∈ (getFile mem always name s).2.log) ∧
    ∀ d start e, (findFile mem name 0 s.mounts).2 = some (d, start, e) →
      .content d (start + e.content.offset) e.content.length ∈ (getFile mem always name s).2.log := by
  have hm : malloc always sizeofFSFile s = (some s.nextBlock,
      { s with clock := s.clock + 1, live := s.nextBlock :: s.live, nextBlock := s.nextBlock + 1 }) :=
    rfl
  unfold getFile
  rw [if_neg h]
  simp only [hm]
  split
  · rename_i accesses d start e hf
    rw [hf]
    refine ⟨fun x hx => ?_, fun d' start' e' he => ?_⟩
    · exact List.mem_append_right _ (List.mem_append_left _ hx)
    · cases he
      exact List.mem_append_right _ (List.mem_append_right _ (List.mem_singleton_self _))
  · rename_i accesses hf
    rw [hf]
    exact ⟨fun x hx => List.mem_append_right _ hx, nofun⟩

/-- Every element has a property if it passes from those before. -/
theorem forall_mem_of_before {α : Type} {p : α → Prop} {l : List α}
    (h : ∀ before x after, l = before ++ x :: after → (∀ y ∈ before, p y) → p x) : ∀ x ∈ l, p x := by
  have hi (i : Nat) (hi : i < l.length) : p l[i] := by
    induction i using Nat.strongRecOn with
    | ind i ih =>
      refine h (l.take i) l[i] (l.drop (i + 1)) ?_ fun y hy => ?_
      · rw [List.getElem_cons_drop, List.take_append_drop]
      · obtain ⟨j, hj, rfl⟩ := List.mem_iff_getElem.mp hy
        rw [List.length_take] at hj
        rw [List.getElem_take]
        exact ih j (by omega) (by omega)
  intro x hx
  obtain ⟨i, hlt, rfl⟩ := List.mem_iff_getElem.mp hx
  exact hi i hlt

/-- What staying in bounds says of the first lookup after mounting. -/
theorem within_of_inBoundsRun {a : Archive} (h0 : a.buf ≠ 0)
    (h : ∀ cs, (∀ b, .loadFs b ∈ cs → b = a) → InBoundsRun mem always cs Session.init) :
    a.Contains a.buf 4 ∧
    (count mem a.buf ≠ 0 → a.Contains (a.buf + 4) (sizeofFSEntry * count mem a.buf)) ∧
    ∀ name, (∀ before e after, entries mem a.buf = before ++ e :: after →
        (∀ e' ∈ before, ¬CStringAt mem (nameAddr mem a.buf e') name.1) →
        a.Contains (nameAddr mem a.buf e) (strcmp mem name.1 (nameAddr mem a.buf e)).1) ∧
      ∀ e, a.First mem name e → a.Contains (contentAddr mem a.buf e) e.content.length := by
  obtain ⟨fs, m, hload, hmounts, ⟨hfiles, hstart⟩, ht, htable⟩ :=
    loadFs_always mem h0 { Session.init.fs with log := [] }
  have hstep : Session.init.step mem always (.loadFs a) = ⟨fs, [a]⟩ := by
    unfold Session.step
    dsimp only
    rw [hload]
    rfl
  have hrun (name : CString) := h [.loadFs a, .getFile name] fun b hb => by simpa using hb
  have hw (name : CString) := (hrun name).1
  rw [hstep] at hw
  have hcontains {x : Access} {addr n : Nat} (hx : x = .table addr n) (hmem : x ∈ fs.log) :
      a.Contains addr n := by
    obtain ⟨b, hb, hc⟩ := hx ▸ hw ⟨[], nofun⟩ x hmem
    cases hb
    exact hc
  refine ⟨hcontains rfl ht, fun hn => hcontains rfl (htable hn), fun name => ?_⟩
  have hget : ∀ x ∈ (getFile mem always name { fs with log := [] }).2.log, Within none [a] x := by
    have := (hrun name).2.1
    rw [hstep] at this
    exact this
  obtain ⟨hreads, hfound⟩ := getFile_always mem name
    (show { fs with log := [] }.mounts ≠ [] by rw [hmounts]; nofun)
  generalize (getFile mem always name { fs with log := [] }).2.log = log at hget hreads hfound
  simp only [hmounts, findFile_cons, hfiles] at hreads hfound
  have hpay {e : FSEntry} (he : e ∈ entries mem a.buf) : m.current.start = payload mem a.buf :=
    hstart (by rw [hfiles]; exact List.ne_nil_of_mem he)
  refine ⟨fun before e after hsplit hbefore => ?_, fun e ⟨before, after, hsplit, hat, hbefore⟩ => ?_⟩
  · rw [hpay (e := e) (by rw [hsplit]; simp)] at hreads
    have hcmp : nameRead mem name 0 (payload mem a.buf) e ∈
        (findEntry mem name 0 (payload mem a.buf) (entries mem a.buf)).1 := by
      rw [hsplit]
      exact compared_of_before hbefore
    have hx := hreads (nameRead mem name 0 (payload mem a.buf) e) (by
      split
      · exact hcmp
      · exact List.mem_append_left _ hcmp)
    obtain ⟨b, hb, hc⟩ := hget _ hx
    cases hb
    exact hc
  · rw [hpay (e := e) (by rw [hsplit]; simp)] at hfound
    have hfind : (findEntry mem name 0 (payload mem a.buf) (entries mem a.buf)).2 = some e :=
      findEntry_eq_some.mpr ⟨before, after, hsplit, hat, hbefore⟩
    obtain ⟨b, hb, hc⟩ := hget _ (hfound 0 (payload mem a.buf) e (by rw [hfind]))
    cases hb
    exact hc

/-- A name that agrees with the bytes at the address up to the end of the
buffer, and is longer than the buffer. -/
def overlong (mem : Mem) (a : Archive) (addr : Nat) : List Byte :=
  mem.bytes addr (a.buf + a.buflen - addr) ++ List.replicate a.buflen 1

theorem zero_notMem_overlong {a : Archive} {addr : Nat} (h : ¬a.Terminated mem addr) :
    0 ∉ overlong mem a addr := by
  intro hmem
  rcases List.mem_append.mp hmem with hb | hr
  · obtain ⟨k, hk, h0⟩ := List.mem_map.mp hb
    rw [List.mem_range] at hk
    exact h ⟨k, by omega, h0⟩
  · exact absurd (List.eq_of_mem_replicate hr) (by decide)

theorem holds_bytes (mem : Mem) (addr n : Nat) : mem.Holds addr (mem.bytes addr n) := by
  intro i hi
  simp [Mem.bytes]

/-- An archive in which every run stays in bounds is safe. -/
theorem safe_of_inBoundsRun {a : Archive} (h0 : a.buf ≠ 0)
    (h : ∀ cs, (∀ b, .loadFs b ∈ cs → b = a) → InBoundsRun mem always cs Session.init) :
    Safe mem a := by
  obtain ⟨hheader, htable, hget⟩ := within_of_inBoundsRun h0 h
  have h4 : 4 ≤ a.buflen := by have := hheader.2; omega
  refine ⟨h4, ?_, forall_mem_of_before fun before e after hsplit hbefore => ?_, fun name e he =>
    (hget name).2 e he⟩
  · by_cases hc : count mem a.buf = 0
    · rw [hc]; exact h4
    · have := (htable hc).2
      omega
  · refine Classical.byContradiction fun hterm => ?_
    let addr := nameAddr mem a.buf e
    have hlen : a.buflen ≤ (overlong mem a addr).length := by simp [overlong]
    have hc := (hget ⟨overlong mem a addr, zero_notMem_overlong hterm⟩).1 before e after hsplit
      fun e' he' hat => ?_
    · have hgt := strcmp_reads_gt (holds_bytes mem addr (a.buf + a.buflen - addr))
        (List.replicate a.buflen 1)
      rw [Mem.length_bytes] at hgt
      have hend : addr + (strcmp mem (overlong mem a addr) addr).1 ≤ a.buf + a.buflen := hc.2
      have hgt : a.buf + a.buflen - addr < (strcmp mem (overlong mem a addr) addr).1 := hgt
      omega
    · obtain ⟨k, hk, hz⟩ := hbefore e' he'
      have hle := length_le_of_cstringAt (zero_notMem_overlong hterm) hat hz
      have hbuf : a.buf ≤ nameAddr mem a.buf e' :=
        Nat.le_trans (buf_le_payload _ _) (Nat.le_add_right ..)
      have hle : (overlong mem a addr).length ≤ k := hle
      omega

/-- Every run that mounts archives of a set stays inside them if and only if
they are safe; mounting a null buffer is rejected. -/
theorem archive_bounds_iff (mem : Mem) (S : Archive → Prop) :
    (∀ alloc cs, (∀ a, .loadFs a ∈ cs → S a) → InBoundsRun mem alloc cs Session.init) ↔
      ∀ a, S a → a.buf ≠ 0 → Safe mem a := by
  constructor
  · intro h a ha h0
    refine safe_of_inBoundsRun h0 fun cs hcs => h always cs fun b hb => ?_
    rw [hcs b hb]
    exact ha
  · intro h alloc cs hcs
    exact inBoundsRun_of_safe inv_init fun a ha h0 => h a (hcs a ha) h0

/-- Four bytes that announce one entry: `load_fs` reads it past the buffer. -/
theorem short_archive_overruns :
    ¬InBoundsRun (fun x => if x = 16 then 1 else 0) always [.loadFs ⟨16, 4⟩] Session.init := fun h => by
  obtain ⟨a, ha, hc⟩ := h.1 (.table 20 16) (by decide)
  cases ha
  exact absurd hc.2 (by decide)

end CkbJs.Proof.CellFs
