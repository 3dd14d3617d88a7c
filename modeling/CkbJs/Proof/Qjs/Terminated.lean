import CkbJs.Proof.Loader
import CkbJs.Proof.Qjs.Boot

/-!
# The inputs of the parser

In each mode `main` calls `JS_Eval` at most once: `eval_buf` does, unless the buffer holds
bytecode (`calls_evalBuf`), and `compile_from_file`. `eval_buf` gets a string of `argv`, a
buffer that ends with a NUL, or an entry file of an archive (`calls_runFromFileSystemBuf`). So
the inputs end with a NUL exactly in the runs that are prepared (`zeroTerminated_iff`).
-/

namespace CkbJs.Proof.Qjs

open CkbJs.Impl CkbJs.Impl.Qjs CkbJs.Impl.Loader CkbJs.Spec.Qjs CkbJs.Spec.Loader CkbJs.Proof.Loader
open CkbJs.Impl.CellFs (FSEntry)
open CkbJs.Spec.CellFs (Archive Represents contentAddr)

variable {env : Env} {s : Vm} {argv : List CString}

/-- However it ends, the program leaves a state with these calls of `JS_Eval`. -/
def Calls {α : Type} (x : M α) (s : Vm) (P : List EvalCall → Prop) : Prop :=
  WP x s (fun _ s' => P s'.evals) (fun _ s' => P s'.evals)

theorem Calls.mono {α : Type} {x : M α} {P Q : List EvalCall → Prop} (h : Calls x s P)
    (hPQ : ∀ calls, P calls → Q calls) : Calls x s Q :=
  WP.mono h (fun _ s' => hPQ s'.evals) fun _ s' => hPQ s'.evals

/-- A request is no call of `JS_Eval`. -/
theorem keeps_evals_ask (P : List EvalCall → Prop) (req : Request) :
    Keeps (fun s : Vm => P s.evals) (ask env req) :=
  fun _ hs => wp_ask (fun _ _ => hs) (fun _ => hs) (fun _ _ => hs) fun _ => hs

/-- The call of `JS_Eval` that `eval_buf` makes, unless the buffer holds bytecode. -/
def calls (mem : Mem) (buf : Nat) (bufLen : Int) : List EvalCall :=
  if mem buf = BC_VERSION then [] else [⟨mem, buf, CkbModule.size bufLen⟩]

theorem calls_evalBuf (buf : Nat) (bufLen : Int) (filename : String) (module : Bool) :
    Calls (evalBuf env buf bufLen filename module) s (· = s.evals ++ calls s.mem buf bufLen) := by
  have hask := @keeps_evals_ask env (· = s.evals ++ calls s.mem buf bufLen)
  unfold calls at hask ⊢
  refine WP.bind (WP.of_get (WP.ite (fun hbc => ?_) fun hbc => ?_))
  · rw [if_pos hbc, List.append_nil] at hask ⊢
    exact keeps_evalBytecode hask _ s rfl
  · rw [if_neg hbc] at hask ⊢
    refine WP.ite (fun _ => ?_) fun _ => ?_
    · refine WP.bind (wp_jsEval ((hask _ _ rfl).mono (fun val s' h => ?_) fun _ _ h => h))
      exact WP.ite (fun _ => keeps_evalFunction hask s' h) fun _ => keeps_finish hask val s' h
    · exact WP.bind (wp_jsEval ((hask _ _ rfl).mono (fun val s' h => keeps_finish hask val s' h)
        fun _ _ h => h))

/-! ## The entry file -/

/-- The call of `JS_Eval` for the entry file of an archive. -/
def entryCall (mem : Mem) (a : Archive) (e : FSEntry) : EvalCall :=
  ⟨mem, contentAddr mem a.buf e, CkbModule.size (Int.bmod e.content.length (2 ^ 32))⟩

/-- An allocator that fails once, when `get_file` looks for `main.js`. -/
def failsOnce : CellFs.Alloc := fun t _ => t ≠ 3

/-- The calls are for an entry file that is a source; and either file can be the one that is
evaluated. -/
structure EntryCalls (alloc : CellFs.Alloc) (mem : Mem) (a : Archive) (calls : List EvalCall) : Prop where
  sound : ∀ call ∈ calls, ∃ e, MainFile mem a e ∧ IsSource mem a e ∧ call = entryCall mem a e
  js : alloc = CellFs.always → ∀ e, a.First mem mainFileName e → IsSource mem a e →
    entryCall mem a e ∈ calls
  bc : alloc = failsOnce → ∀ e, a.First mem mainFileNameBc e → IsSource mem a e →
    entryCall mem a e ∈ calls

theorem EntryCalls.nil {alloc : CellFs.Alloc} {mem : Mem} {a : Archive}
    (hjs : alloc = CellFs.always → ∀ e, a.First mem mainFileName e → ¬IsSource mem a e)
    (hbc : alloc = failsOnce → ∀ e, a.First mem mainFileNameBc e → ¬IsSource mem a e) :
    EntryCalls alloc mem a [] :=
  ⟨fun _ hc => absurd hc List.not_mem_nil, fun ha e he hs => absurd hs (hjs ha e he),
    fun ha e he hs => absurd hs (hbc ha e he)⟩

/-- What is done with an entry file. -/
theorem calls_entry {a : Archive} {e : FSEntry} {file : CellFs.FSFile} (hs : s.evals = [])
    (he : MainFile s.mem a e) (hjs : env.alloc = CellFs.always → ∀ e', a.First s.mem mainFileName e' → e' = e)
    (hbc : env.alloc = failsOnce → ∀ e', a.First s.mem mainFileNameBc e' → e' = e)
    (hcontent : file.content = contentAddr s.mem a.buf e) (hsize : file.size = e.content.length) :
    Calls (if file.size = 0 then pure (-1)
      else evalBuf env file.content (Int.bmod file.size (2 ^ 32)) "main.js" true) s
      (EntryCalls env.alloc s.mem a) := by
  refine WP.ite (fun h0 => ?_) fun h0 => ?_
  · show EntryCalls _ _ _ s.evals
    rw [hs]
    have hne : ¬IsSource s.mem a e := fun hsource => hsource.1 (hsize ▸ h0)
    exact EntryCalls.nil (fun ha e' he' => (hjs ha e' he').symm ▸ hne)
      fun ha e' he' => (hbc ha e' he').symm ▸ hne
  · refine (calls_evalBuf _ _ _ _).mono fun l hl => ?_
    rw [hs, List.nil_append, hcontent, hsize] at hl
    rw [hl]
    unfold calls
    split
    · have hne : ¬IsSource s.mem a e := fun hsource => hsource.2 ‹_›
      exact EntryCalls.nil (fun ha e' he' => (hjs ha e' he').symm ▸ hne)
        fun ha e' he' => (hbc ha e' he').symm ▸ hne
    · refine ⟨fun call hc => ⟨e, he, ⟨hsize ▸ h0, ‹_›⟩, List.mem_singleton.mp hc⟩, fun ha e' he' _ => ?_,
        fun ha e' he' _ => ?_⟩
      · rw [hjs ha e' he']
        exact List.mem_singleton_self _
      · rw [hbc ha e' he']
        exact List.mem_singleton_self _

theorem count_ne_zero_of_first {mem : Mem} {a : Archive} {name : CString} {e : FSEntry}
    (h : a.First mem name e) : CellFs.count mem a.buf ≠ 0 := by
  obtain ⟨before, after, hsplit, -⟩ := h
  intro h0
  rw [CellFs.entries, h0, List.range_zero, List.map_nil] at hsplit
  exact List.append_ne_nil_of_right_ne_nil before (List.cons_ne_nil e after) hsplit.symm

/-- `load_fs` makes three allocations. -/
theorem loadFs_failsOnce {mem : Mem} {buf : Nat} (h0 : buf ≠ 0) (hc : CellFs.count mem buf ≠ 0) (bufSize : Nat) :
    (CellFs.loadFs mem failsOnce buf bufSize CellFs.Fs.init).1 = 0 ∧
      (CellFs.loadFs mem failsOnce buf bufSize CellFs.Fs.init).2.clock = 3 := by
  simp [CellFs.loadFs, CellFs.malloc, CellFs.Fs.init, CellFs.Fs.logged, failsOnce, h0, hc]

/-- `load_fs` mounts the archive, unless memory is short. -/
theorem wp_loadFs {a : Archive} (bufSize : Nat) {Q : Int → Vm → Prop} {R : Stop → Vm → Prop}
    (h0 : a.buf ≠ 0) (hs : s.fs = CellFs.Fs.init)
    (hfail : ∀ fs, env.alloc ≠ CellFs.always → (CellFs.count s.mem a.buf ≠ 0 → env.alloc ≠ failsOnce) →
      Q (-1) { s with fs := fs })
    (hok : ∀ fs, List.Forall₂ (Represents s.mem) fs.mounts [a] →
      (CellFs.count s.mem a.buf ≠ 0 → env.alloc = failsOnce → fs.clock = 3) → Q 0 { s with fs := fs }) :
    WP (modifyGet fun s =>
      let (err, fs) := CellFs.loadFs s.mem env.alloc a.buf bufSize s.fs
      (err, { s with fs := fs }) : M Int) s Q R := by
  refine WP.of_modifyGet ?_
  rcases hload : CellFs.loadFs s.mem env.alloc a.buf bufSize s.fs with ⟨err, fs⟩
  have honce (hc : CellFs.count s.mem a.buf ≠ 0) (ha : env.alloc = failsOnce) : err = 0 ∧ fs.clock = 3 := by
    have h := loadFs_failsOnce h0 hc bufSize
    rw [hs, ha] at hload
    rwa [hload] at h
  rcases (CellFs.loadFs_cases (a := ⟨a.buf, bufSize⟩) hload).1 with ⟨rfl, -⟩ | ⟨rfl, m, hm, hrep⟩
  · refine hfail fs (fun halways => ?_) fun hc ha => absurd (honce hc ha).1 (by decide)
    obtain ⟨fs', m, hok, -⟩ := CellFs.loadFs_always s.mem (a := ⟨a.buf, bufSize⟩) h0 s.fs
    rw [halways] at hload
    exact absurd (congrArg Prod.fst (hok.symm.trans hload)) (show ¬(0 : Int) = -1 by decide)
  · refine hok fs ?_ fun hc ha => (honce hc ha).2
    rw [hm, hs]
    exact .cons hrep .nil

/-- `ckb_get_file` gives the first file of the name, unless there is none or memory is short. -/
theorem wp_ckbGetFile {a : Archive} {name : CString} {Q : Int × Option CellFs.FSFile → Vm → Prop}
    {R : Stop → Vm → Prop} (hreps : List.Forall₂ (Represents s.mem) s.fs.mounts [a])
    (hfail : ∀ fs, fs.mounts = s.fs.mounts → fs.clock = s.fs.clock + 1 →
      (env.alloc s.fs.clock CellFs.sizeofFSFile = true → ¬a.Has s.mem name) → Q (-1, none) { s with fs := fs })
    (hok : ∀ fs e file, env.alloc s.fs.clock CellFs.sizeofFSFile = true → a.First s.mem name e →
      file.content = contentAddr s.mem a.buf e → file.size = e.content.length →
      Q (0, some file) { s with fs := fs }) :
    WP (ckbGetFile env name) s Q R := by
  refine WP.of_modifyGet ?_
  rcases hget : CellFs.getFile s.mem env.alloc name s.fs with ⟨r, fs⟩
  have hmounts : fs.mounts = s.fs.mounts := by
    rw [← mounts_getFile s.mem env.alloc name s.fs, hget]
  have hne : s.fs.mounts ≠ [] := fun h => by
    rw [h] at hreps
    cases hreps
  have hclock : fs.clock = s.fs.clock + 1 := by
    rw [← clock_getFile s.mem env.alloc name hne, hget]
  have hcases := @getFile_mounts s.mem env.alloc s.fs [a] hreps name
  rw [hget] at hcases
  rcases hcases with ⟨hr, hnot⟩ | ⟨a', e, file, hr, halloc, htop, hcontent, hsize⟩
  · obtain rfl : r = (-1, none) := hr
    exact hfail fs hmounts hclock fun halloc => hnot halloc a (List.mem_singleton_self a)
  · obtain rfl : r = (0, some file) := hr
    obtain ⟨ha, hfirst⟩ := first_of_topmost htop
    obtain rfl := List.mem_singleton.mp ha
    exact hok fs e file halloc hfirst hcontent hsize

theorem calls_runFromFileSystemBuf (a : Archive) (bufSize : Nat) (h0 : a.buf ≠ 0) (hs : s.evals = [])
    (hfs : s.fs = CellFs.Fs.init) :
    Calls (runFromFileSystemBuf env a.buf bufSize) s (EntryCalls env.alloc s.mem a) := by
  have hnil (hjs : env.alloc = CellFs.always → ∀ e, ¬a.First s.mem mainFileName e)
      (hbc : env.alloc = failsOnce → ∀ e, ¬a.First s.mem mainFileNameBc e) :
      EntryCalls env.alloc s.mem a s.evals :=
    hs.symm ▸ EntryCalls.nil (fun ha e he _ => hjs ha e he) fun ha e he _ => hbc ha e he
  have hfail : (-1 : Int) ≠ 0 := by decide
  refine WP.bind (wp_loadFs bufSize h0 hfs (fun fs hjs hbc => ?_) fun fs hreps honce => ?_)
  · exact WP.ite (fun _ => hnil (fun ha => absurd ha hjs) fun ha e he =>
      hbc (count_ne_zero_of_first he) ha) fun h => absurd hfail h
  refine WP.ite (fun h => absurd rfl h) fun _ => WP.bind ?_
  refine wp_ckbGetFile hreps (fun fs' hmounts hclock hjs => ?_)
    fun fs' e file halloc hfirst hcontent hsize => ?_
  · -- `main.js` is not found
    have hjs (ha : env.alloc = CellFs.always) (e : FSEntry) (he : a.First s.mem mainFileName e) : False :=
      hjs (by rw [ha]) (CellFs.has_of_first he)
    have honce' (ha : env.alloc = failsOnce) (e : FSEntry) (he : a.First s.mem mainFileNameBc e) :
        env.alloc fs'.clock CellFs.sizeofFSFile = true := by
      rw [ha, hclock, honce (count_ne_zero_of_first he) ha]
      rfl
    refine WP.ite (fun _ => WP.bind ?_) fun h => absurd hfail h
    have hreps' : List.Forall₂ (Represents s.mem) fs'.mounts [a] := hmounts ▸ hreps
    refine wp_ckbGetFile hreps' (fun fs'' _ _ hbc => ?_) fun fs'' e file _ hfirst hcontent hsize => ?_
    · refine WP.ite (fun _ => hnil hjs fun ha e he => ?_) fun h => absurd hfail h
      exact hbc (honce' ha e he) (CellFs.has_of_first he)
    · refine WP.ite (fun h => absurd rfl h) fun _ => ?_
      exact calls_entry (s := { s with fs := fs'' }) hs (.inr hfirst) (fun ha e' he' => (hjs ha e' he').elim)
        (fun _ e' he' => first_unique he' hfirst) hcontent hsize
  · refine WP.ite (fun h => absurd rfl h) fun _ => WP.bind (WP.of_pure (WP.ite (fun h => absurd rfl h) fun _ => ?_))
    refine calls_entry (s := { s with fs := fs' }) hs (.inl hfirst) (fun _ e' he' => first_unique he' hfirst)
      (fun ha e' he' => ?_) hcontent hsize
    have halloc : env.alloc fs.clock CellFs.sizeofFSFile = true := halloc
    rw [ha, honce (count_ne_zero_of_first he') ha] at halloc
    exact absurd halloc (by decide)

/-- A file whose length does not survive its conversion is not inside the buffer, before or after. -/
theorem terminated_entryCall {mem : Mem} {a : Archive} {e : FSEntry} (hlen : e.content.length < 2 ^ 32)
    (ha : a.buflen ≤ 2 ^ 31) :
    Terminated a (entryCall mem a e) ↔ Terminated a ⟨mem, contentAddr mem a.buf e, e.content.length⟩ := by
  by_cases hlt : e.content.length < 2 ^ 31
  · rw [entryCall, size_bmod hlt]
  · have hbig : 2 ^ 31 ≤ CkbModule.size (Int.bmod e.content.length (2 ^ 32)) := by
      unfold CkbModule.size
      have hb : Int.bmod e.content.length (2 ^ 32) = e.content.length - 2 ^ 32 := by
        rw [Int.bmod_def]
        omega
      rw [hb]
      omega
    have hnot {n : Nat} (hn : 2 ^ 31 ≤ n) : ¬Terminated a ⟨mem, contentAddr mem a.buf e, n⟩ := fun h => by
      obtain ⟨hlo, hhi⟩ := h.inside
      dsimp only at hlo hhi
      omega
    exact iff_of_false (hnot hbig) (hnot (Nat.le_of_not_lt hlt))

theorem length_lt_of_first {mem : Mem} {a : Archive} {name : CString} {e : FSEntry}
    (h : a.First mem name e) : e.content.length < 2 ^ 32 := by
  obtain ⟨before, after, hsplit, -⟩ := h
  have he : e ∈ CellFs.entries mem a.buf := by
    rw [hsplit]
    exact List.mem_append_right before List.mem_cons_self
  obtain ⟨i, -, rfl⟩ := List.mem_map.mp he
  exact Mem.load_lt mem _ 4

/-- The inputs of the parser end with a NUL, whatever memory there is, exactly where the entry
files are followed by one. -/
theorem entryCalls_iff {mem : Mem} {a : Archive} {calls : CellFs.Alloc → List EvalCall}
    (h : ∀ alloc, EntryCalls alloc mem a (calls alloc)) (ha : a.buflen ≤ 2 ^ 31) :
    (∀ alloc, ∀ call ∈ calls alloc, Terminated a call) ↔ ∀ e, MainFile mem a e → Followed mem a e := by
  constructor
  · intro hall e he hsource
    rcases he with he | he
    · exact (terminated_entryCall (length_lt_of_first he) ha).mp
        (hall _ _ ((h CellFs.always).js rfl e he hsource))
    · exact (terminated_entryCall (length_lt_of_first he) ha).mp
        (hall _ _ ((h failsOnce).bc rfl e he hsource))
  · intro hall alloc call hc
    obtain ⟨e, he, hsource, rfl⟩ := (h alloc).sound call hc
    have hlen : e.content.length < 2 ^ 32 := he.elim length_lt_of_first length_lt_of_first
    exact (terminated_entryCall hlen ha).mpr (hall e he hsource)

/-! ## The modes -/

/-- The NUL behind a local file is inside its buffer. -/
theorem size_localCount (hread : localCount env ≤ localFileSize) (hreads : Reads env) :
    CkbModule.size (localCount env) < localFileSize := by
  unfold Reads at hreads
  unfold CkbModule.size
  unfold localFileSize at *
  omega

/-- A buffer that a NUL is stored in, behind the text. -/
theorem calls_stored (a : Archive) {bufLen : Int} {len : Nat} (hs : s.evals = [])
    (hsize : CkbModule.size bufLen = len) (hlen : len < a.buflen) :
    Calls (store (a.buf + len) [0] >>= fun _ => evalBuf env a.buf bufLen "<run_from_file>" false) s
      (fun calls => ∀ call ∈ calls, Terminated a call) := by
  refine WP.bind (wp_store ?_)
  refine Calls.mono (Q := fun l => ∀ call ∈ l, Terminated a call) (calls_evalBuf a.buf bufLen _ _)
    fun l hl call hc => ?_
  rw [hl, hs, List.nil_append] at hc
  unfold calls at hc
  split at hc
  · exact absurd hc List.not_mem_nil
  · rw [List.mem_singleton.mp hc, hsize]
    exact ⟨⟨Nat.le_refl _, Nat.add_le_add_left hlen _⟩, Mem.holds_write s.mem _ [0] 0 (by decide)⟩

/-- The rest of a run from a cell, once the data of the cell is loaded. -/
theorem calls_runFromCellData {enableFs : Bool} {P : List EvalCall → Prop} (hnot : ¬Loads env → P [])
    (hloads : Loads env → Calls (if enableFs then runFromFileSystemBuf env env.stackBuf (code env).length
      else store (env.stackBuf + (code env).length) [0] >>= fun _ =>
        evalBuf env env.stackBuf (Int.bmod (code env).length (2 ^ 32)) "<run_from_file>" false)
      { Vm.init env with clock := 3, mem := stack env (code env) } P) :
    Calls (runFromCellData env enableFs) (Vm.init env) P := by
  have hload (req : CkbModule.LoadReq) (cap : Nat) :
      Keeps (fun s => ∃ t, s = { Vm.init env with clock := t }) (load env req cap) := by
    rintro _ ⟨t, rfl⟩
    exact wp_load (fun _ => ⟨t + 1, rfl⟩) fun _ => ⟨t + 1, rfl⟩
  refine WP.seq ((wp_loadCellCodeInfo rfl).and (keeps_loadCellCodeInfo hload (Vm.init env) ⟨0, rfl⟩))
    (fun _ _ h => h.1.elim) fun r s₁ ⟨⟨_, h⟩, t, hs₁⟩ => ?_
  rcases h with ⟨ha, rfl, hc⟩ | ⟨ha, hr⟩
  · rw [hs₁] at hc ⊢
    obtain rfl : t = 2 := hc
    refine WP.ite (fun h => absurd rfl h) fun _ => WP.ite (fun h => ?_) fun hfits => ?_
    · exact hnot fun hl => Nat.not_le_of_lt h hl.fits
    refine WP.seq (wp_loadCellCode rfl) (fun _ _ h => h.elim) fun ret s₂ h => ?_
    rcases h with ⟨rfl, hload, rfl⟩ | ⟨rfl, hload, rfl⟩
    · refine WP.ite (fun h => absurd rfl h) fun _ => ?_
      exact hloads ⟨ha, Nat.le_of_not_lt hfits, hload⟩
    · refine WP.ite (fun _ => hnot fun hl => hload hl.loadCode) fun h => ?_
      exact absurd (show (-1 : Int) ≠ 0 by decide) h
  · rw [hs₁]
    exact WP.ite (fun _ => hnot fun hl => ha hl.admits) fun h => absurd hr h

/-- The rest of a run from a local file, once the file is read. -/
theorem calls_runFromLocalFile {enableFs : Bool} {P : List EvalCall → Prop} (hnot : ¬Reads env → P [])
    (hreads : Reads env → Calls (if enableFs then
        runFromFileSystemBuf env env.stackBuf (CkbModule.size (localCount env))
      else store (env.stackBuf + CkbModule.size (localCount env)) [0] >>= fun _ =>
        evalBuf env env.stackBuf (localCount env) "<run_from_file>" false)
      { Vm.init env with mem := stack env (localFile env) } P) :
    Calls (runFromLocalFile env enableFs) (Vm.init env) P := by
  refine WP.bind (WP.bind (wp_store (WP.of_pure ?_)))
  exact WP.ite (fun h => hnot fun hr => hr h) hreads

theorem calls_compileFromFile {P : List EvalCall → Prop} (hnot : ¬Reads env → P [])
    (hreads : Reads env →
      P [⟨stack env (localFile env), env.stackBuf, CkbModule.size (localCount env)⟩]) :
    Calls (compileFromFile env) (Vm.init env) P := by
  refine WP.bind (WP.bind (wp_store (WP.of_pure ?_)))
  refine WP.ite (fun h => hnot fun hr => hr h) fun hr => WP.bind (wp_jsEval ?_)
  have hask := @keeps_evals_ask env P
  refine (hask _ _ (hreads hr)).mono (fun val s' h => ?_) fun _ _ h => h
  refine WP.ite (fun _ => ?_) fun _ => ?_
  · exact ((keeps_dumpError hask).bind fun _ => .of_pure _) s' h
  · exact ((hask _).bind fun _ => Keeps.ite (.of_pure _) (.of_pure _)) s' h

/-- The string of `-e` ends with a NUL if its length is the one that the parser gets. -/
theorem terminated_cmdline {mem : Mem} {buf : Nat} {code : List Byte} (h0 : 0 ∉ code)
    (hmem : mem.Holds buf (code ++ [0])) (bufLen : Int) :
    (∀ call ∈ calls mem buf bufLen, Terminated ⟨buf, code.length + 1⟩ call) ↔
      (code.head? ≠ some BC_VERSION → CkbModule.size bufLen = code.length) := by
  obtain ⟨hcode, hnul⟩ := Mem.holds_append.mp hmem
  have hhead : mem buf = BC_VERSION ↔ code.head? = some BC_VERSION := by
    cases code with
    | nil => exact iff_of_false (fun h => absurd ((hnul 0 (by decide)).symm.trans h) (by decide)) nofun
    | cons c cs =>
      have hc : mem buf = c := hcode 0 (Nat.zero_lt_succ _)
      rw [List.head?_cons, Option.some_inj, hc]
  unfold calls
  by_cases hbc : mem buf = BC_VERSION
  · rw [if_pos hbc]
    exact iff_of_true (fun call hc => absurd hc List.not_mem_nil) fun h => absurd (hhead.mp hbc) h
  · rw [if_neg hbc]
    constructor
    · intro h _
      obtain ⟨⟨-, hhi⟩, hzero⟩ := h _ (List.mem_singleton_self _)
      dsimp only at hhi hzero
      rcases Nat.lt_or_ge (CkbModule.size bufLen) code.length with hlt | hge
      · have hz : code[CkbModule.size bufLen] = 0 := (hcode _ hlt).symm.trans hzero
        exact absurd (hz ▸ List.getElem_mem hlt) h0
      · omega
    · intro h call hc
      rw [List.mem_singleton.mp hc, h fun hh => hbc (hhead.mpr hh)]
      exact ⟨⟨Nat.le_refl _, Nat.le_refl _⟩, hnul 0 (by decide)⟩

/-- The call of `JS_Eval` for a string of `argv`. -/
def cmdlineCalls (env : Env) (code : CString) : List EvalCall :=
  calls (env.junk.write env.argvBuf (code.1 ++ [0])) env.argvBuf (Int.bmod code.1.length (2 ^ 32))

theorem calls_evalCmdline (code : CString) :
    Calls (evalCmdline env code) (Vm.init env) (· = cmdlineCalls env code) :=
  WP.bind (wp_store (calls_evalBuf _ _ _ _))

/-! ## The run -/

theorem evals_run {P : List EvalCall → Prop} (h : Calls (main env argv) (Vm.init env) P) :
    P (run env argv).2.evals := by
  unfold Calls WP at h
  unfold run
  split at h
  · rename_i hrun
    rw [hrun]
    exact h
  · rename_i hrun
    rw [hrun]
    exact h

/-- What `main` does once there is a context. -/
def mode (env : Env) (argv : List CString) : M Int :=
  match parseArgs argv with
  | .runJsWithCode => evalCmdline env (argv.getD 1 .empty)
  | .runJsWithFile => runFromCellData env false
  | .runJsWithFileSystem => runFromCellData env true
  | .runJsWithDbgFile => runFromLocalFile env false
  | .runJsWithDbgFileSystem => runFromLocalFile env true
  | .compileWithFile => compileFromFile env
  | .runJsError => pure (-1)

theorem main_eq_mode (hr : env.newRuntime = true) (hc : env.newContext = true) :
    main env argv = mode env argv := by
  unfold main mode
  rw [hr, hc]
  cases parseArgs argv <;> rfl

/-- Without a runtime or a context, nothing is evaluated. -/
theorem evals_main_of_not (h : ¬(env.newRuntime = true ∧ env.newContext = true)) :
    (run env argv).2.evals = [] := by
  refine evals_run (P := (· = [])) ?_
  refine WP.ite (fun _ => rfl) fun _ => WP.ite (fun _ => rfl) fun hr => WP.ite (fun _ => rfl) fun hc => ?_
  exact absurd ⟨Decidable.not_not.mp hr, Decidable.not_not.mp hc⟩ h

theorem evals_mode (hr : env.newRuntime = true) (hc : env.newContext = true) (P : List EvalCall → Prop)
    (h : Calls (mode env argv) (Vm.init env) P) : P (run env argv).2.evals := by
  refine evals_run ?_
  rw [main_eq_mode hr hc]
  exact h

/-- Of what gives no input to the parser, every input ends with a NUL. -/
theorem terminated_nil (a : Archive) : ∀ call ∈ ([] : List EvalCall), Terminated a call :=
  fun _ hc => absurd hc List.not_mem_nil

section

variable (hr : env.newRuntime = true) (hc : env.newContext = true)
include hr hc

theorem evals_code (hargs : parseArgs argv = .runJsWithCode) : (run env argv).2.evals =
    cmdlineCalls env (argv.getD 1 .empty) := by
  refine evals_mode hr hc (· = cmdlineCalls env (argv.getD 1 .empty)) ?_
  unfold mode
  rw [hargs]
  exact calls_evalCmdline _

theorem terminated_file (hargs : parseArgs argv = .runJsWithFile) :
    ∀ call ∈ (run env argv).2.evals, Terminated ⟨env.stackBuf, (code env).length + 1⟩ call := by
  refine evals_mode hr hc (fun l => ∀ call ∈ l, Terminated _ call) ?_
  unfold mode
  rw [hargs]
  refine calls_runFromCellData (fun _ => terminated_nil _) fun hl => ?_
  have hlen : (code env).length < 2 ^ 31 := by
    have := hl.fits
    have := env.stackRoom_lt
    omega
  exact calls_stored ⟨env.stackBuf, (code env).length + 1⟩ rfl (size_bmod hlen) (Nat.lt_succ_self _)

theorem evals_fileSystem (hargs : parseArgs argv = .runJsWithFileSystem) :
    (¬Loads env → (run env argv).2.evals = []) ∧
      (Loads env → EntryCalls env.alloc (stack env (code env)) ⟨env.stackBuf, (code env).length + 1⟩
        (run env argv).2.evals) := by
  refine evals_mode hr hc (fun l => (¬Loads env → l = []) ∧ (Loads env → EntryCalls _ _ _ l)) ?_
  unfold mode
  rw [hargs]
  refine calls_runFromCellData (fun hn => ⟨fun _ => rfl, fun hl => absurd hl hn⟩) fun hl => ?_
  refine Calls.mono (calls_runFromFileSystemBuf ⟨env.stackBuf, (code env).length + 1⟩ (code env).length
    (Nat.ne_of_gt env.stackBuf_pos) rfl rfl) fun l h => ?_
  exact ⟨fun hn => absurd hl hn, fun _ => h⟩

theorem terminated_dbgFile (hread : localCount env ≤ localFileSize)
    (hargs : parseArgs argv = .runJsWithDbgFile) :
    ∀ call ∈ (run env argv).2.evals, Terminated ⟨env.stackBuf, localFileSize⟩ call := by
  refine evals_mode hr hc (fun l => ∀ call ∈ l, Terminated _ call) ?_
  unfold mode
  rw [hargs]
  refine calls_runFromLocalFile (fun _ => terminated_nil _) fun hreads => ?_
  exact calls_stored ⟨env.stackBuf, localFileSize⟩ rfl rfl (size_localCount hread hreads)

theorem evals_dbgFileSystem (hargs : parseArgs argv = .runJsWithDbgFileSystem) :
    (¬Reads env → (run env argv).2.evals = []) ∧
      (Reads env → EntryCalls env.alloc (stack env (localFile env)) ⟨env.stackBuf, localFileSize⟩
        (run env argv).2.evals) := by
  refine evals_mode hr hc (fun l => (¬Reads env → l = []) ∧ (Reads env → EntryCalls _ _ _ l)) ?_
  unfold mode
  rw [hargs]
  refine calls_runFromLocalFile (fun hn => ⟨fun _ => rfl, fun hl => absurd hl hn⟩) fun hl => ?_
  refine Calls.mono (calls_runFromFileSystemBuf ⟨env.stackBuf, localFileSize⟩
    (CkbModule.size (localCount env)) (Nat.ne_of_gt env.stackBuf_pos) rfl rfl) fun l h => ?_
  exact ⟨fun hn => absurd hl hn, fun _ => h⟩

theorem evals_compile (hargs : parseArgs argv = .compileWithFile) :
    (¬Reads env → (run env argv).2.evals = []) ∧
      (Reads env → (run env argv).2.evals =
        [⟨stack env (localFile env), env.stackBuf, CkbModule.size (localCount env)⟩]) := by
  refine evals_mode hr hc (fun l => (¬Reads env → l = []) ∧ (Reads env → l = _)) ?_
  unfold mode
  rw [hargs]
  exact calls_compileFromFile (fun hn => ⟨fun _ => rfl, fun hl => absurd hl hn⟩) fun hl =>
    ⟨fun hn => absurd hl hn, fun _ => rfl⟩

end

theorem loads_withAlloc {alloc : CellFs.Alloc} : Loads { env with alloc := alloc } ↔ Loads env :=
  ⟨fun ⟨⟨h1, h2, h3, h4, h5, h6, h7⟩, h8, h9⟩ => ⟨⟨h1, h2, h3, h4, h5, h6, h7⟩, h8, h9⟩,
    fun ⟨⟨h1, h2, h3, h4, h5, h6, h7⟩, h8, h9⟩ => ⟨⟨h1, h2, h3, h4, h5, h6, h7⟩, h8, h9⟩⟩

/-- The inputs end with a NUL if nothing is evaluated unless the run gets to an archive, and
then its entry files are followed by one. -/
theorem terminated_archive_iff {mem : Mem} {a : Archive} {reached : Prop}
    {calls : CellFs.Alloc → List EvalCall} (ha : reached → a.buflen ≤ 2 ^ 31)
    (h : ∀ alloc, (¬reached → calls alloc = []) ∧ (reached → EntryCalls alloc mem a (calls alloc))) :
    (∀ alloc, ∀ call ∈ calls alloc, Terminated a call) ↔
      (reached → ∀ e, MainFile mem a e → Followed mem a e) := by
  by_cases hr : reached
  · rw [entryCalls_iff (fun alloc => (h alloc).2 hr) (ha hr)]
    exact ⟨fun h _ => h, fun h => h hr⟩
  · refine iff_of_true (fun alloc => ?_) fun h => absurd h hr
    rw [(h alloc).1 hr]
    exact terminated_nil a

/-- The sources that a run gives to the parser end with a NUL exactly where the run is prepared. -/
theorem mainTerminated_iff (env : Env) (argv : List CString) (hread : localCount env ≤ localFileSize) :
    (∀ alloc, ∀ call ∈ (run { env with alloc := alloc } argv).2.evals, Terminated (buffer env argv) call) ↔
      Prepared env argv := by
  by_cases hrun : env.newRuntime = true ∧ env.newContext = true
  case neg =>
    refine iff_of_true (fun alloc => ?_) fun hr hc => absurd ⟨hr, hc⟩ hrun
    rw [@evals_main_of_not { env with alloc := alloc } argv hrun]
    exact terminated_nil _
  obtain ⟨hr, hc⟩ := hrun
  unfold Prepared buffer
  rw [forall_prop_of_true hr, forall_prop_of_true hc]
  cases hargs : parseArgs argv with
  | runJsError =>
    refine iff_of_true (fun alloc => ?_) trivial
    refine @evals_mode { env with alloc := alloc } argv hr hc (fun l => ∀ call ∈ l, Terminated _ call) ?_
    unfold mode
    rw [hargs]
    exact terminated_nil _
  | runJsWithCode =>
    rw [← terminated_cmdline (argv.getD 1 .empty).2 (Mem.holds_write env.junk env.argvBuf _)]
    refine ⟨fun h => ?_, fun h alloc => ?_⟩
    · have hcode := h env.alloc
      rwa [evals_code hr hc hargs] at hcode
    · rw [@evals_code { env with alloc := alloc } argv hr hc hargs]
      exact h
  | runJsWithFile =>
    exact iff_of_true (fun alloc => @terminated_file { env with alloc := alloc } argv hr hc hargs) trivial
  | runJsWithFileSystem =>
    refine terminated_archive_iff (fun hl => ?_) fun alloc => ?_
    · exact Nat.le_trans hl.fits (Nat.le_of_lt env.stackRoom_lt)
    · have h := @evals_fileSystem { env with alloc := alloc } argv hr hc hargs
      exact ⟨fun hn => h.1 fun hl => hn (loads_withAlloc.mp hl), fun hl => h.2 (loads_withAlloc.mpr hl)⟩
  | runJsWithDbgFile =>
    exact iff_of_true (fun alloc => @terminated_dbgFile { env with alloc := alloc } argv hr hc hread hargs) trivial
  | runJsWithDbgFileSystem =>
    refine terminated_archive_iff (fun _ => show localFileSize ≤ 2 ^ 31 by decide) fun alloc => ?_
    exact @evals_dbgFileSystem { env with alloc := alloc } argv hr hc hargs
  | compileWithFile =>
    have hcompile (alloc : CellFs.Alloc) := @evals_compile { env with alloc := alloc } argv hr hc hargs
    constructor
    · intro h hreads
      have hcall := h env.alloc
      rw [(hcompile env.alloc).2 hreads] at hcall
      exact (hcall _ (List.mem_singleton_self _)).zero
    · intro h alloc
      by_cases hreads : Reads env
      · rw [(hcompile alloc).2 hreads]
        intro call hcall
        rw [List.mem_singleton.mp hcall]
        exact ⟨⟨Nat.le_refl _, Nat.add_le_add_left (size_localCount hread hreads) _⟩, h hreads⟩
      · rw [(hcompile alloc).1 hreads]
        exact terminated_nil _

/-- The parser gets sources that end with a NUL exactly where the run is prepared, and every
source in the archives that modules are loaded from has a NUL behind it. -/
theorem zeroTerminated_iff (env : Env) (argv : List CString) (mem : Mem) (S : Archive → Prop)
    (hread : localCount env ≤ localFileSize) : ZeroTerminated env argv mem S ↔
      Prepared env argv ∧ ∀ a, S a → a.buf ≠ 0 → AllFollowed mem a := by
  rw [← mainTerminated_iff env argv hread, ← loadsTerminated_iff]
  exact ⟨fun h => ⟨h.main, h.modules⟩, fun h => ⟨h.1, h.2⟩⟩

/-- A world where the local file is `1;`, and the stack is filled with a byte. -/
def compileWorld (b : Byte) : Env :=
  { world [] with readLocalFile := fun _ => (2, [49, 59]), junk := fun _ => b }

theorem reads_compileWorld (b : Byte) : Reads (compileWorld b) := by
  show ¬((2 : Int) < 0 ∨ (2 : Int) = localFileSize)
  decide

/-- On a stack of zeros, `-c` gives the parser a source that ends with a NUL. -/
theorem zeroTerminated_compileWorld :
    ZeroTerminated (compileWorld 0) [optC] (fun _ => 0) (fun _ => False) :=
  (zeroTerminated_iff (compileWorld 0) [optC] (fun _ => 0) (fun _ => False)
    (show (2 : Int) ≤ localFileSize by decide)).mpr
    ⟨fun _ _ _ => by decide, fun _ hS => hS.elim⟩

/-- On a stack of spaces, the source of `-c` goes on behind the file. -/
theorem not_zeroTerminated : ¬ZeroTerminated (compileWorld 32) [optC] (fun _ => 0) (fun _ => False) := by
  intro h
  have hread : localCount (compileWorld 32) ≤ localFileSize := show (2 : Int) ≤ localFileSize by decide
  have hnul : stack (compileWorld 32) [49, 59] (8192 + 2) = 0 :=
    (mainTerminated_iff (compileWorld 32) [optC] hread).mp h.main rfl rfl (reads_compileWorld 32)
  exact absurd hnul (by decide)

end CkbJs.Proof.Qjs
