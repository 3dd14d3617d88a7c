import CkbJs.Proof.CkbModule.Arity
import CkbJs.Proof.CkbModule.Marshal

/-!
# Views of array buffers

The bindings take the whole buffer of a typed array. For a view of all of it that is the view;
`honoursView_iff` says when they take the bytes of the view.
-/

namespace CkbJs.Proof.CkbModule

open CkbJs.Impl CkbJs.Impl.CkbModule CkbJs.Spec.CkbModule

variable {env : Env} {s : Vm} {a : Args} {data : List Byte} {off len : Nat}

/-! ## The bytes of a view -/

theorem length_viewed (h : off + len ≤ data.length) : (viewed data off len).length = len := by
  rw [viewed, List.length_take, List.length_drop]
  omega

/-- A view shows its whole buffer exactly where it is as long. -/
theorem viewed_eq_iff (h : off + len ≤ data.length) : viewed data off len = data ↔ len = data.length := by
  constructor
  · intro hv
    rw [← length_viewed h, hv]
  · intro hl
    obtain rfl : off = 0 := by omega
    rw [viewed, List.drop_zero, hl, List.take_length]

/-- The buffer that the accessors find behind a view. -/
theorem buffer_of_isView {E : Engine} {v : JSValue} (h : IsView E v data off len) :
    getTypedArrayBuffer E v ≠ .exception ∧ getArrayBuffer E (getTypedArrayBuffer E v) = some data := by
  obtain ⟨o, b, rfl, hta, hab⟩ := h.buffer
  have hbuf : getArrayBuffer E (.object b) = some data := by
    simp only [getArrayBuffer, hab, Bool.false_eq_true, if_false]
  have hobj : getTypedArrayBuffer E (.object o) = .object b := by
    simp only [getTypedArrayBuffer, hta, hbuf, Option.isSome_some, if_true]
  rw [hobj]
  exact ⟨nofun, hbuf⟩

theorem codeHash_of_isView {E : Engine} {v : JSValue} (h : IsView E v data off len) :
    codeHash E v = if data.length = 32 then some data else none := by
  obtain ⟨hne, hbuf⟩ := buffer_of_isView h
  rw [codeHash, if_neg hne, hbuf, Option.filter_some]
  simp only [decide_eq_true_eq]

/-! ## `set_content` -/

/-- `set_content` hands over the whole buffer. -/
theorem wp_setContent (h : IsView env.engine (a.slot 0) data off len) (hs : s.events = []) :
    WP (syscallSetContent env a) s (fun _ s' => s'.events.filterMap contentOf = [data])
      (fun _ s' => s'.events.filterMap contentOf = [data]) := by
  obtain ⟨hne, hbuf⟩ := buffer_of_isView h
  have hcomp := computes_bufferArg env a (fun p => p.isSome) SyscallErrorUnknown rfl
  dsimp only at hcomp
  rw [if_neg hne, hbuf, Option.filter_some, Option.isSome_some, if_pos rfl] at hcomp
  rw [syscallSetContent_eq]
  refine WP.seq (hcomp.wp rfl) (fun _ _ h => h.elim) ?_
  rintro content s' ⟨hcontent, ev, rfl, hr, -⟩
  obtain rfl : data = content := hcontent.symm
  have hreads : (s.events ++ ev).filterMap contentOf = [] := by
    rw [hs, List.nil_append, List.filterMap_eq_nil_iff]
    intro e he
    rcases hr e he with ⟨i, rfl⟩ | ⟨ok, rfl⟩
    · rfl
    · rfl
  have hev (err : Int) : ((s.events ++ ev) ++ [Event.setContent data err]).filterMap contentOf = [data] := by
    rw [List.filterMap_append, hreads]
    rfl
  refine WP.bind (wp_tick (WP.bind (wp_log (WP.bind (wp_check (fun _ => ?_) fun _ => hev _)))))
  exact WP.of_pure (hev _)

theorem handsOver_iff (h : IsView env.engine (a.slot 0) data off len) :
    HandsOver env a s (viewed data off len) ↔ len = data.length := by
  have hall : (run env .setContent a s).2.events.filterMap contentOf = [data] :=
    call_of_wp (fun _ s' => s'.events.filterMap contentOf = [data]) (wp_setContent h rfl)
  rw [HandsOver, hall, ← viewed_eq_iff h.bound]
  exact ⟨fun heq => (List.cons.inj heq).1.symm, fun heq => by rw [heq]⟩

/-! ## Code hashes -/

/-- What starts with a code hash reads its second argument exactly where there is one. -/
theorem wp_second {k : List Byte → JSValue → M JSResult} (hs : s.events = [])
    (hk : ∀ codeHash v, Keeps (fun s => Event.arg 1 ∈ s.events) (k codeHash v)) :
    WP (codeHashArg env a >>= fun codeHash => a.get 1 >>= k codeHash) s
      (fun _ s' => .arg 1 ∈ s'.events ↔ (codeHash env.engine (a.slot 0)).isSome)
      (fun _ s' => .arg 1 ∈ s'.events ↔ (codeHash env.engine (a.slot 0)).isSome) := by
  have hbelow : Below 1 s := fun i hi => by rw [hs] at hi; cases hi
  have hkeeps : Keeps (Below 1) (codeHashArg env a) := keeps_codeHashArg (minds_below 1) (by decide)
  refine WP.seq ((hkeeps s hbelow).and (computes_codeHashArg env a s)) ?_ ?_
  · rintro e s' ⟨hb, hnone, -⟩
    rw [hnone]
    exact iff_of_false (fun h => absurd (hb 1 h) (by decide)) nofun
  · rintro codeHash s' ⟨-, hsome, -⟩
    refine WP.bind (WP.bind (wp_log (WP.of_pure ?_)))
    have hmem : Event.arg 1 ∈ s'.events ++ [.arg 1] :=
      List.mem_append_right _ (List.mem_singleton_self _)
    rw [hsome]
    exact (hk codeHash (a.slot 1) _ hmem).mono (fun _ _ h => iff_of_true h rfl)
      fun _ _ h => iff_of_true h rfl

theorem reads_second_iff {b : Binding} (hb : b = .execCell ∨ b = .spawnCell) :
    Event.arg 1 ∈ (run env b a s).2.events ↔ (codeHash env.engine (a.slot 0)).isSome := by
  refine call_of_wp (fun _ s' => Event.arg 1 ∈ s'.events ↔ _) ?_
  rcases hb with rfl | rfl
  · have heq : Binding.func env .execCell a = _ := syscallExecCell_rest
    rw [heq]
    refine wp_second rfl fun codeHash v => ?_
    exact keeps_execRest (minds_mem (max a.argc 4) _) codeHash v (Nat.le_max_right ..) (Nat.le_max_left ..)
  · have heq : Binding.func env .spawnCell a = _ := syscallSpawnCell_rest
    rw [heq]
    refine wp_second rfl fun codeHash v => ?_
    exact keeps_spawnRest (minds_mem (max a.argc 3) _) codeHash v (Nat.le_max_right ..) (Nat.le_max_left ..)

theorem GoesOn.mem_issued {k : Nat} {req req' : ExecReq} {lacks : Prop} {o : Outcome}
    (h : GoesOn a k req lacks o s) (hm : req' ∈ issued (o, s)) : req' = req := by
  cases h with
  | overflows _ _ hi => rw [hi] at hm; cases hm
  | starves _ _ _ hi => rw [hi] at hm; cases hm
  | issues _ _ _ hi => rw [hi] at hm; exact List.mem_singleton.mp hm

theorem codeHash_of_execHead {E : Engine} {h : List Byte × Nat × Nat × Nat} (hh : execHead E a = some h) :
    codeHash E (a.slot 0) = some h.1 := by
  simp only [execHead, Option.bind_eq_bind, Option.bind_eq_some_iff, Option.some.injEq] at hh
  obtain ⟨codeHash, hc, _, -, _, -, _, -, rfl⟩ := hh
  exact hc

theorem codeHash_of_spawnHead {E : Engine} {h : List Byte × Nat × Int × Int × Int × Int}
    (hh : spawnHead E a = some h) : codeHash E (a.slot 0) = some h.1 := by
  simp only [spawnHead, Option.bind_eq_bind, Option.bind_eq_some_iff, Option.some.injEq] at hh
  obtain ⟨codeHash, hc, _, -, _, -, _, -, _, -, _, -, rfl⟩ := hh
  exact hc

/-- The code hash of an issued request is that of the first argument. -/
theorem codeHash_of_issued {b : Binding} (hb : b = .execCell ∨ b = .spawnCell) {req : ExecReq}
    (hm : req ∈ issued (run env b a s)) : codeHash env.engine (a.slot 0) = some req.codeHash := by
  rcases hb with rfl | rfl
  · obtain ⟨-, -, hi⟩ | ⟨h, hhead, hg⟩ := run_execCell env a s
    · rw [hi] at hm; cases hm
    · rw [hg.mem_issued hm]
      exact codeHash_of_execHead hhead
  · obtain ⟨-, -, hi⟩ | ⟨h, hhead, hg⟩ := run_spawnCell env a s
    · rw [hi] at hm; cases hm
    · rw [hg.mem_issued hm]
      exact codeHash_of_spawnHead hhead

/-- A call that runs another cell stays inside `passed_argv` exactly where its arguments fit. -/
theorem defined_iff {b : Binding} (hb : b = .execCell ∨ b = .spawnCell) :
    (run env b a s).1 ≠ .undefined ↔ Fits env.engine a b := by
  rcases hb with rfl | rfl
  · obtain ⟨hnone, ho, -⟩ | ⟨h, hhead, hg⟩ := run_execCell env a s
    · rw [Fits, ho, hnone]
      exact iff_of_true nofun ⟨nofun, nofun⟩
    · rw [ne_eq, hg.undefined_iff, Nat.not_lt, Fits, hhead]
      exact ⟨fun hle => ⟨fun _ _ => hle, nofun⟩, fun hf => hf.1 rfl rfl⟩
  · obtain ⟨hnone, ho, -⟩ | ⟨h, hhead, hg⟩ := run_spawnCell env a s
    · rw [Fits, ho, hnone]
      exact iff_of_true nofun ⟨nofun, nofun⟩
    · rw [ne_eq, hg.undefined_iff, Nat.not_lt, Fits, hhead]
      exact ⟨fun hle => ⟨nofun, fun _ _ => hle⟩, fun hf => hf.2 rfl rfl⟩

theorem acceptsHash_iff {b : Binding} (hb : b = .execCell ∨ b = .spawnCell)
    (h : IsView env.engine (a.slot 0) data off len) :
    AcceptsHash env b a s (viewed data off len) ↔
      (data.length = 32 ↔ len = 32) ∧ Fits env.engine a b := by
  have hsome : (codeHash env.engine (a.slot 0)).isSome ↔ data.length = 32 := by
    rw [codeHash_of_isView h]
    split
    · exact iff_of_true rfl ‹_›
    · exact iff_of_false nofun ‹_›
  rw [AcceptsHash, defined_iff hb, reads_second_iff hb, hsome, length_viewed h.bound, and_comm]
  refine and_congr_left fun _ => ?_
  refine and_iff_left_of_imp fun hiff req hm => ?_
  have hc := codeHash_of_issued hb hm
  have hdata : data.length = 32 := hsome.mp (by rw [hc]; rfl)
  rw [codeHash_of_isView h, if_pos hdata] at hc
  rw [← Option.some.inj hc]
  exact ((viewed_eq_iff h.bound).mpr ((hiff.mp hdata).trans hdata.symm)).symm

/-- The bindings take the bytes of a view exactly where, for `set_content`, the view is as long as
its buffer and, for a code hash, both or none of them have 32 bytes and the arguments fit. -/
theorem honoursView_iff (env : Env) (b : Binding) (a : Args) (s : Vm) (data : List Byte) (off len : Nat)
    (h : IsView env.engine (a.slot 0) data off len) :
    HonoursView env b a s (viewed data off len) ↔
      (b = .setContent → len = data.length) ∧
      (b = .execCell ∨ b = .spawnCell → (data.length = 32 ↔ len = 32) ∧ Fits env.engine a b) := by
  rw [HonoursView]
  refine and_congr ?_ ?_
  · exact forall_congr' fun _ => handsOver_iff h
  · exact forall_congr' fun hb => acceptsHash_iff hb h

/-- A view of all of a buffer of 32 bytes. -/
theorem honoursView_world : HonoursView world .execCell
    (callFrame 4 [.object 0, .int 0, .int 0, .int 0] fun _ => .undefined) Vm.init
    (viewed (List.replicate 32 0) 0 32) := by
  refine (honoursView_iff world .execCell _ Vm.init _ 0 32 ⟨⟨0, 1, rfl, rfl, rfl⟩, by decide⟩).mpr ?_
  exact ⟨nofun, fun _ => ⟨by decide, fun _ _ => by decide, nofun⟩⟩

/-- An engine with a view of the second of two bytes. -/
def viewWorld : Env :=
  { world with engine :=
    { world.engine with
      typedArray := fun _ => some ⟨1, 1, 1⟩
      arrayBuffer := fun _ => some ⟨[7, 8], false⟩ } }

/-- `set_content` hands over the byte before the view as well. -/
theorem not_honoursView : IsView viewWorld.engine (.object 0) [7, 8] 1 1 ∧
    ¬HonoursView viewWorld .setContent (callFrame 1 [.object 0] fun _ => .undefined) Vm.init
      (viewed [7, 8] 1 1) := by
  refine ⟨⟨⟨0, 1, rfl, rfl, rfl⟩, by decide⟩, fun h => ?_⟩
  exact absurd (show List.filterMap contentOf _ = _ from h.1 rfl) (by decide)

end CkbJs.Proof.CkbModule
