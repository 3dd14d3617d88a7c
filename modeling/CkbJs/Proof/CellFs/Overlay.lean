import CkbJs.Proof.CellFs.Bounds

/-!
# Mounts as an overlay

The mounts of a run are those of its mounted archives (`represents_run`), so that the loop
over the mounts finds the topmost entry of a name (`findFile_topmost`), and `get_file` gives
it where there is memory for the result (`getFile_eq`): `overlay_run`. Whatever allocations
fail, a call gains the blocks of its result and no other (`loadFs_atomic`,
`getFile_atomic`).
-/

namespace CkbJs.Proof.CellFs

open CkbJs.Impl CkbJs.Impl.CellFs CkbJs.Spec.CellFs

variable {mem : Mem} {alloc : Alloc}

/-! ## Lookups -/

/-- `get_file` gives what its loops find, if there is memory for the result. -/
theorem getFile_eq (mem : Mem) (alloc : Alloc) (name : CString) (s : Fs) :
    (getFile mem alloc name s).1 = if alloc s.clock sizeofFSFile then
      ((findFile mem name 0 s.mounts).2.elim (-1, none) fun found => (0, some
        { block := s.nextBlock, filename := name, content := found.2.1 + found.2.2.content.offset
          size := found.2.2.content.length, rc := 1 }))
    else (-1, none) := by
  unfold getFile malloc
  by_cases h0 : s.mounts = []
  · rw [if_pos h0, h0]
    simp [findFile]
  · rw [if_neg h0]
    by_cases ha : alloc s.clock sizeofFSFile = true
    · simp only [if_pos ha]
      generalize findFile mem name 0 s.mounts = r
      obtain ⟨accesses, found⟩ := r
      cases found with
      | none => rfl
      | some found => rfl
    · simp only [if_neg ha]

/-- A mount is searched like the archive it represents. -/
theorem Represents.findEntry_eq {m : Mount} {a : Archive} (h : Represents mem m a) (name : CString)
    (depth : Nat) : (findEntry mem name depth m.current.start m.current.files).2 =
      (findEntry mem name depth (payload mem a.buf) (entries mem a.buf)).2 := by
  by_cases he : m.current.files = []
  · rw [he, ← h.1, he]
    rfl
  · rw [h.2 he, h.1]

theorem findEntry_eq_none {name : CString} {depth : Nat} {a : Archive} :
    (findEntry mem name depth (payload mem a.buf) (entries mem a.buf)).2 = none ↔ ¬a.Has mem name := by
  rw [findEntry_eq, List.find?_eq_none]
  constructor
  · rintro h ⟨e, he, hat⟩
    exact h e he (strcmp_iff.mpr hat)
  · intro h e he hs
    exact h ⟨e, he, strcmp_iff.mp hs⟩

/-- An archive in which an entry of the name is found has the name. -/
theorem has_of_first {a : Archive} {name : CString} {e : FSEntry} (h : a.First mem name e) :
    a.Has mem name := by
  obtain ⟨before, after, hsplit, hat, -⟩ := h
  exact ⟨e, hsplit ▸ List.mem_append_right before List.mem_cons_self, hat⟩

/-- The loop over the mounts finds the topmost entry of the name, if there is one. -/
theorem findFile_topmost {ms : List Mount} {mounted : List Archive}
    (h : List.Forall₂ (Represents mem) ms mounted) (name : CString) (depth : Nat) :
    ((findFile mem name depth ms).2 = none ∧ ∀ a ∈ mounted, ¬a.Has mem name) ∨
      ∃ d a e, (findFile mem name depth ms).2 = some (d, payload mem a.buf, e) ∧
        Topmost mem mounted name a e := by
  induction h generalizing depth with
  | nil => exact Or.inl ⟨rfl, fun a ha => absurd ha List.not_mem_nil⟩
  | @cons m a ms mounted hr _ ih =>
    rw [findFile_cons, Represents.findEntry_eq hr]
    cases hf : (findEntry mem name depth (payload mem a.buf) (entries mem a.buf)).2 with
    | some e =>
      obtain ⟨before, after, hsplit, hfirst⟩ := findEntry_eq_some.mp hf
      have hstart : m.current.start = payload mem a.buf := hr.2 (by rw [hr.1, hsplit]; simp)
      refine Or.inr ⟨depth, a, e, by rw [hstart], [], mounted, rfl, ⟨before, after, hsplit, hfirst⟩, ?_⟩
      exact fun a' ha' => absurd ha' List.not_mem_nil
    | none =>
      have hnot := findEntry_eq_none.mp hf
      rcases ih (depth + 1) with ⟨hnone, hall⟩ | ⟨d, a', e, hsome, newer, older, hsplit, hfirst, hnewer⟩
      · exact Or.inl ⟨hnone, List.forall_mem_cons.mpr ⟨hnot, hall⟩⟩
      · exact Or.inr ⟨d, a', e, hsome, a :: newer, older, by rw [hsplit, List.cons_append], hfirst,
          List.forall_mem_cons.mpr ⟨hnot, hnewer⟩⟩

/-- The depth is for the log only. -/
theorem findFile_depth (name : CString) (depth depth' : Nat) (ms : List Mount) :
    (findFile mem name depth ms).2.map Prod.snd = (findFile mem name depth' ms).2.map Prod.snd := by
  induction ms generalizing depth depth' with
  | nil => rfl
  | cons m ms ih =>
    rw [findFile_cons, findFile_cons, findEntry_eq name depth, findEntry_eq name depth']
    cases m.current.files.find? fun e => (strcmp mem name.1 (m.current.start + e.filename.offset)).2 with
    | none => exact ih (depth + 1) (depth' + 1)
    | some e => rfl

/-! ## Runs -/

theorem represents_run {s : Session} (h : List.Forall₂ (Represents mem) s.fs.mounts s.mounted)
    (cs : List Call) :
    List.Forall₂ (Represents mem) (s.run mem alloc cs).fs.mounts (s.run mem alloc cs).mounted := by
  induction cs generalizing s with
  | nil => exact h
  | cons c cs ih => exact ih (represents_step h c)

/-- What a file is to a caller who looks the name up in some mounts. -/
theorem view_getFile {name : CString} {s : Fs} (h : alloc s.clock sizeofFSFile = true) :
    (getFile mem alloc name s).1.map id (Option.map view) =
      ((findFile mem name 0 s.mounts).2.map Prod.snd).elim (-1, none) fun found =>
        (0, some (name, found.1 + found.2.content.offset, found.2.content.length, 1)) := by
  rw [getFile_eq, if_pos h]
  cases (findFile mem name 0 s.mounts).2 with
  | none => rfl
  | some found => rfl

theorem overlay_of_represents {s : Session} (h : List.Forall₂ (Represents mem) s.fs.mounts s.mounted) :
    Overlay mem alloc s where
  success name := by
    rw [getFile_eq]
    by_cases ha : alloc s.fs.clock sizeofFSFile = true
    · rw [if_pos ha]
      rcases findFile_topmost h name 0 with ⟨hnone, hall⟩ | ⟨d, a, e, hsome, newer, older, hsplit, hfirst, -⟩
      · rw [hnone]
        refine iff_of_false (show ¬(-1 : Int) = 0 by decide) ?_
        rintro ⟨-, a, ha, hhas⟩
        exact hall a ha hhas
      · rw [hsome]
        exact iff_of_true rfl ⟨ha, a, hsplit ▸ List.mem_append_right newer List.mem_cons_self,
          has_of_first hfirst⟩
    · rw [if_neg ha]
      exact iff_of_false (show ¬(-1 : Int) = 0 by decide) fun hc => ha hc.1
  content name h0 := by
    rw [getFile_eq] at h0 ⊢
    by_cases ha : alloc s.fs.clock sizeofFSFile = true
    · rw [if_pos ha] at h0 ⊢
      rcases findFile_topmost h name 0 with ⟨hnone, -⟩ | ⟨d, a, e, hsome, htop⟩
      · rw [hnone] at h0
        exact absurd h0 (show ¬(-1 : Int) = 0 by decide)
      · rw [hsome]
        exact ⟨_, a, e, rfl, htop, rfl, rfl⟩
    · rw [if_neg ha] at h0
      exact absurd h0 (show ¬(-1 : Int) = 0 by decide)
  mount a name hmounted hnot halloc halloc' := by
    obtain ⟨ret, fs, hr, hstep⟩ := step_loadFs mem alloc a s
    rw [view_getFile halloc, view_getFile halloc', hstep]
    rw [hstep] at hmounted
    rcases (loadFs_cases hr).1 with ⟨rfl, -⟩ | ⟨-, m, hm, hrep⟩
    · have hlen := congrArg List.length (show s.mounted = a :: s.mounted from hmounted)
      rw [List.length_cons] at hlen
      omega
    · show ((findFile mem name 0 fs.mounts).2.map Prod.snd).elim _ _ = _
      rw [hm, findFile_cons, Represents.findEntry_eq hrep, findEntry_eq_none.mpr hnot]
      exact congrArg (Option.elim · _ _) (findFile_depth name (0 + 1) 0 s.fs.mounts)

/-- After any sequence of calls the mounts are an overlay. -/
theorem overlay_run (mem : Mem) (alloc : Alloc) (cs : List Call) :
    Overlay mem alloc (Session.init.run mem alloc cs) :=
  overlay_of_represents (represents_run .nil cs)

/-- An archive of an empty file `a`. -/
def oneFile : List Byte := [1, 0, 0, 0, 0, 0, 0, 0, 2, 0, 0, 0, 2, 0, 0, 0, 0, 0, 0, 0, 97, 0, 0]

/-- `load_fs` has used up the memory, and `get_file` does not find what was mounted. -/
theorem lookup_needs_memory : ¬∀ mem alloc cs name,
    ((getFile mem alloc name (Session.init.run mem alloc cs).fs).1.1 = 0 ↔
      ∃ a ∈ (Session.init.run mem alloc cs).mounted, a.Has mem name) := by
  intro h
  have hiff := h (Mem.ofBytes 64 oneFile) (fun t _ => t < 3) [.loadFs ⟨64, 23⟩] ⟨[97], by decide⟩
  have hret : (getFile (Mem.ofBytes 64 oneFile) (fun t _ => t < 3) ⟨[97], by decide⟩
      (Session.init.run (Mem.ofBytes 64 oneFile) (fun t _ => t < 3) [.loadFs ⟨64, 23⟩]).fs).1.1 = -1 := by
    decide
  rw [hret] at hiff
  refine absurd (hiff.mpr ⟨⟨64, 23⟩, by decide, ⟨⟨0, 2⟩, ⟨2, 0⟩⟩, by decide, strcmp_iff.mp (by decide)⟩) ?_
  decide

/-! ## Allocation failures -/

/-- What a call of `malloc` leaves. -/
theorem malloc_cases {size : Nat} {s s' : Fs} {r : Option Nat} (h : malloc alloc size s = (r, s')) :
    s'.mounts = s.mounts ∧ (r = none ∧ s'.live = s.live ∧ s'.nextBlock = s.nextBlock ∨
      r = some s.nextBlock ∧ s'.live = s.nextBlock :: s.live ∧ s'.nextBlock = s.nextBlock + 1) := by
  unfold malloc at h
  by_cases ha : alloc s.clock size = true
  · rw [if_pos ha] at h
    cases h
    exact ⟨rfl, Or.inr ⟨rfl, rfl, rfl⟩⟩
  · rw [if_neg ha] at h
    cases h
    exact ⟨rfl, Or.inl ⟨rfl, rfl, rfl⟩⟩

theorem loadAtomic_failed {s s' : Fs} (hm : s'.mounts = s.mounts) (hl : s'.live = s.live) :
    LoadAtomic s (-1) s' :=
  ⟨Or.inr rfl, fun _ => ⟨hm, hl⟩, fun h => absurd h (by decide)⟩

theorem loadAtomic_mounted {s s' : Fs} {m : Mount} (hm : s'.mounts = m :: s.mounts)
    (hg : Gains (blocks m) s s') : LoadAtomic s 0 s' :=
  ⟨Or.inl rfl, fun h => absurd h (by decide), fun _ => ⟨m, hm, hg⟩⟩

/-- Whichever of its allocations fail, `load_fs` is atomic. -/
theorem loadFs_atomic (mem : Mem) (alloc : Alloc) (buf buflen : Nat) (s : Fs) :
    LoadAtomic s (loadFs mem alloc buf buflen s).1 (loadFs mem alloc buf buflen s).2 := by
  unfold loadFs
  by_cases h0 : buf = 0
  · rw [if_pos h0]
    exact loadAtomic_failed rfl rfl
  rw [if_neg h0]
  -- the node
  rcases h₁ : malloc alloc sizeofNode s with ⟨r₁, s₁⟩
  obtain ⟨hm₁, ⟨rfl, hl₁, -⟩ | ⟨rfl, hl₁, hn₁⟩⟩ := malloc_cases h₁
  · exact loadAtomic_failed hm₁ hl₁
  -- the list cell: the node is freed
  dsimp only
  rcases h₂ : malloc alloc sizeofCellFileSystem s₁ with ⟨r₂, s₂⟩
  obtain ⟨hm₂, ⟨rfl, hl₂, -⟩ | ⟨rfl, hl₂, hn₂⟩⟩ := malloc_cases h₂
  · refine loadAtomic_failed (hm₂.trans hm₁) ?_
    show s₂.live.erase s.nextBlock = s.live
    rw [hl₂, hl₁, List.erase_cons_head]
  dsimp only
  by_cases hc : count mem buf = 0
  · rw [if_pos hc]
    refine loadAtomic_mounted (congrArg _ (hm₂.trans hm₁)) ⟨?_, ?_, ?_⟩
    · show s₂.live.Perm ([s₁.nextBlock, s.nextBlock] ++ s.live)
      rw [hl₂, hl₁]
      exact List.Perm.refl _
    · show [s₁.nextBlock, s.nextBlock].Nodup
      rw [hn₁]
      simp
    · show ∀ b ∈ [s₁.nextBlock, s.nextBlock], s.nextBlock ≤ b ∧ b < s₂.nextBlock
      intro b hb
      simp only [List.mem_cons, List.not_mem_nil, or_false] at hb
      omega
  rw [if_neg hc]
  -- the entries: the node and the list cell are freed
  rcases h₃ : malloc alloc (sizeofFSEntry * count mem buf) (s₂.logged [.table buf 4]) with ⟨r₃, s₃⟩
  obtain ⟨hm₃, hcase⟩ := malloc_cases h₃
  have hm₃ : s₃.mounts = s.mounts := hm₃.trans (hm₂.trans hm₁)
  have hlive : (s₂.logged [.table buf 4]).live = s₁.nextBlock :: s.nextBlock :: s.live := hl₂.trans (hl₁ ▸ rfl)
  have hnext : (s₂.logged [.table buf 4]).nextBlock = s.nextBlock + 2 := hn₂.trans (by rw [hn₁])
  rw [hlive, hnext, hn₁] at hcase
  obtain ⟨rfl, hl₃, -⟩ | ⟨rfl, hl₃, hn₃⟩ := hcase
  · refine loadAtomic_failed hm₃ ?_
    show (s₃.live.erase s.nextBlock).erase s₁.nextBlock = s.live
    rw [hl₃, hn₁, List.erase_cons_tail (by simp), List.erase_cons_head, List.erase_cons_head]
  · refine loadAtomic_mounted (congrArg _ hm₃) ⟨?_, ?_, ?_⟩
    · show s₃.live.Perm ([s₁.nextBlock, s.nextBlock, s.nextBlock + 2] ++ s.live)
      rw [hl₃, hn₁]
      exact (@List.perm_middle _ (s.nextBlock + 2) [s.nextBlock + 1, s.nextBlock] s.live).symm
    · show [s₁.nextBlock, s.nextBlock, s.nextBlock + 2].Nodup
      rw [hn₁]
      simp
    · show ∀ b ∈ [s₁.nextBlock, s.nextBlock, s.nextBlock + 2], s.nextBlock ≤ b ∧ b < s₃.nextBlock
      intro b hb
      simp only [List.mem_cons, List.not_mem_nil, or_false] at hb
      omega

/-- Whether or not its allocation fails, `get_file` is atomic. -/
theorem getFile_atomic (mem : Mem) (alloc : Alloc) (name : CString) (s : Fs) :
    GetAtomic s (getFile mem alloc name s).1 (getFile mem alloc name s).2 := by
  have hfail {s' : Fs} (hm : s'.mounts = s.mounts) (hl : s'.live = s.live) : GetAtomic s (-1, none) s' :=
    ⟨Or.inr rfl, hm, fun _ => ⟨rfl, hl⟩, fun h => absurd h (show ¬(-1 : Int) = 0 by decide)⟩
  unfold getFile
  by_cases h0 : s.mounts = []
  · rw [if_pos h0]
    exact hfail rfl rfl
  rw [if_neg h0]
  rcases h₁ : malloc alloc sizeofFSFile s with ⟨r₁, s₁⟩
  obtain ⟨hm₁, ⟨rfl, hl₁, -⟩ | ⟨rfl, hl₁, hn₁⟩⟩ := malloc_cases h₁
  · exact hfail hm₁ hl₁
  dsimp only
  rcases findFile mem name 0 s₁.mounts with ⟨accesses, _ | ⟨d, start, e⟩⟩
  · refine hfail hm₁ ?_
    show s₁.live.erase s.nextBlock = s.live
    rw [hl₁, List.erase_cons_head]
  · refine ⟨Or.inl rfl, hm₁, fun h => absurd h (show ¬(0 : Int) = -1 by decide), fun _ => ⟨_, rfl, ?_, ?_, ?_⟩⟩
    · exact hl₁ ▸ List.Perm.refl _
    · exact List.pairwise_singleton _ _
    · show ∀ b ∈ [s.nextBlock], s.nextBlock ≤ b ∧ b < s₁.nextBlock
      rw [hn₁]
      simp

theorem calls_atomic (mem : Mem) (alloc : Alloc) (buf buflen : Nat) (name : CString) (s : Fs) :
    LoadAtomic s (loadFs mem alloc buf buflen s).1 (loadFs mem alloc buf buflen s).2 ∧
      GetAtomic s (getFile mem alloc name s).1 (getFile mem alloc name s).2 :=
  ⟨loadFs_atomic mem alloc buf buflen s, getFile_atomic mem alloc name s⟩

end CkbJs.Proof.CellFs
