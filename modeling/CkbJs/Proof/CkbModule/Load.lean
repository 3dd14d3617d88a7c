import CkbJs.Proof.CkbModule.Args

/-!
# The load bindings

`syscall_load` in its three modes (`syscallLoad_eq`): the length only, all of
the item, a given length. In each, what is read goes into a fresh block
(`wp_readInto`). A load hands the kernel only memory it owns except in the
second mode (`inBounds_iff`).
-/

namespace CkbJs.Proof.CkbModule

open CkbJs.Impl CkbJs.Impl.CkbModule CkbJs.Spec.CkbModule

variable {env : Env} {s : Vm}

/-- What holds of every way a program can end holds of the call. -/
theorem call_of_wp {f : Args → M JSResult} {a : Args} (Φ : Outcome → Vm → Prop)
    (h : WP (f a) s (fun v s' => Φ (.returned v) s') (fun e s' => Φ e.outcome s')) :
    Φ (call f a s).1 (call f a s).2 := by
  unfold WP at h
  unfold call
  split at h <;> rename_i hr <;> rw [hr] <;> exact h

theorem func_of_loader {b : Binding} {hasField : Bool} {func : LoadFunc}
    (h : loader b = some (hasField, func)) : b.func env = loadWith env hasField func := by
  cases b <;> cases h <;> rfl

theorem func_of_hashLoader {b : Binding} {func : LoadFunc} (h : hashLoader b = some func) :
    b.func env = fun _ => syscallLoad env (hashData func) := by
  cases b <;> cases h <;> rfl

/-! ## The modes of `syscall_load` -/

/-- The data of a load, its offset defaulting to 0. -/
def start (data : LoadData) : LoadData :=
  if data.offset = NO_VALUE then { data with offset := 0 } else data

@[simp] theorem length_start (data : LoadData) : (start data).length = data.length := by
  unfold start; split <;> rfl

@[simp] theorem request_start (data : LoadData) : (start data).request = data.request := by
  unfold start; split <;> rfl

theorem offset_start (data : LoadData) :
    (start data).offset = if data.offset = NO_VALUE then 0 else data.offset := by
  unfold start; split <;> rfl

/-- The reply of a load that asks for the length only. -/
def lengthReply (len : Nat) : M JSResult := pure (.value (newUint32 (len % 2 ^ 32)))

/-- The array buffer over what a load of `len` remaining bytes put into a
block of `length` bytes. -/
def wrap (env : Env) (addr length len : Nat) : M JSResult := do
  let realLen := Int.bmod (if len < length then len else length : Nat) (2 ^ 32)
  match ← newArrayBuffer env addr (size realLen) with
  | some (block, len) => return .arrayBuffer block len
  | none => return .exception

/-- The read into a block of `length` bytes. -/
def readInto (env : Env) (data : LoadData) (length : Nat) : M JSResult :=
  malloc env length >>= fun addr => check2 addr.isSome SyscallErrorMemory >>= fun _ =>
    loadFunc env (some (addr.getD 0)) length data >>= fun r => check r.1 >>= fun _ =>
      wrap env (addr.getD 0) length r.2

theorem syscallLoad_eq (data : LoadData) : syscallLoad env data =
    if data.length = 0 then
      loadFunc env none data.length (start data) >>= fun r => check r.1 >>= fun _ => lengthReply r.2
    else if data.length = NO_VALUE then
      loadFunc env none data.length (start data) >>= fun r => check r.1 >>= fun _ =>
        readInto env (start data) r.2
    else readInto env (start data) data.length := by
  rw [← length_start data]
  unfold syscallLoad
  rw [← start]
  rfl

/-- An `int` of the length becomes a `size_t`, which is a length where bit 31 is not set. -/
theorem wp_wrap {addr length len : Nat} {Q : JSResult → Vm → Prop} {R : Stop → Vm → Prop}
    (h1 : env.newArrayBuffer s.clock = true → min len length % 2 ^ 32 < 2 ^ 31 →
      Q (.arrayBuffer addr (min len length % 2 ^ 32)) { s with clock := s.clock + 1 })
    (h0 : env.newArrayBuffer s.clock = false ∨ 2 ^ 31 ≤ min len length % 2 ^ 32 →
      Q .exception { s with clock := s.clock + 1 }) :
    WP (wrap env addr length len) s Q R := by
  have hmin : (if len < length then len else length) = min len length := by split <;> omega
  have hsmall (h : min len length % 2 ^ 32 < 2 ^ 31) :
      size (Int.bmod (min len length : Nat) (2 ^ 32)) = min len length % 2 ^ 32 := by
    rw [Int.bmod_def, if_pos (by omega), ← Int.natCast_mod, size_natCast (by omega)]
  have hbig (h : 2 ^ 31 ≤ min len length % 2 ^ 32) :
      2 ^ 31 ≤ size (Int.bmod (min len length : Nat) (2 ^ 32)) := by
    rw [Int.bmod_def, if_neg (by omega)]
    unfold size
    omega
  unfold wrap
  rw [hmin]
  refine WP.bind (wp_newArrayBuffer (fun hn hlt => ?_) fun h => h0 ?_)
  · have hlt : min len length % 2 ^ 32 < 2 ^ 31 := Nat.lt_of_not_le fun h => absurd hlt (by have := hbig h; omega)
    rw [hsmall hlt]
    exact h1 hn hlt
  · refine h.imp_right fun h => Nat.le_of_not_lt fun hlt => ?_
    rw [hsmall hlt] at h
    omega

/-- The read: where the block can be had and the kernel finds the item it
ends with `wrap`. -/
theorem wp_readInto {data : LoadData} {length : Nat} {Q : JSResult → Vm → Prop}
    {R : Stop → Vm → Prop}
    (hm : env.malloc s.clock length = false → ∀ err, R (.check err) { s with clock := s.clock + 1 })
    (h0 : env.malloc s.clock length = true → loadRet env (allocated env s length) data = 0 →
      WP (wrap env s.nextBlock length (remaining env data).length)
        (loaded env (allocated env s length) (some s.nextBlock) length data) Q R)
    (h1 : env.malloc s.clock length = true → loadRet env (allocated env s length) data ≠ 0 → ∀ err,
      R (.check err) (loaded env (allocated env s length) (some s.nextBlock) length data)) :
    WP (readInto env data length) s Q R := by
  refine WP.bind (wp_malloc (fun ha => ?_) fun ha => ?_)
  · exact WP.bind (wp_check2 (fun _ => wp_load_check (h0 ha) (h1 ha)) nofun)
  · exact WP.bind (wp_check2 nofun fun _ => hm ha _)

/-! ## How a load ends -/

theorem length_remaining_start (data : LoadData) :
    (remaining env (start data)).length = unread env data := by
  rw [remaining, request_start, offset_start, unread]

/-- A read fails before or after its allocation, or else its array buffer owns the block. -/
theorem wp_readInto_cases {data : LoadData} {length : Nat} {Q : JSResult → Vm → Prop}
    {R : Stop → Vm → Prop}
    (hnone : env.malloc s.clock length = false → ∀ s' err, live s' = live s → R (.check err) s')
    (hfail : env.malloc s.clock length = true → ReadFails env s.clock data length → ∀ s',
      live s' = s.nextBlock :: live s → Q .exception s' ∧ ∀ err, R (.check err) s')
    (hok : env.malloc s.clock length = true → ¬ReadFails env s.clock data length → ∀ len s' e,
      live s' = s.nextBlock :: live s → s'.events = s.events ++ [e] →
      capAndOffset e = some (length, (start data).offset) → Q (.arrayBuffer s.nextBlock len) s') :
    WP (readInto env (start data) length) s Q R := by
  have hret : loadRet env (allocated env s length) (start data) =
      env.kernel.loadRet (s.clock + 1) data.request := by
    rw [loadRet, request_start]; rfl
  have hlive : live (loaded env (allocated env s length) (some s.nextBlock) length (start data)) =
      s.nextBlock :: live s := (live_loaded ..).trans rfl
  refine wp_readInto (fun hm err => hnone hm _ err rfl) (fun hm h0 => ?_) fun hm h1 err => ?_
  · rw [hret] at h0
    rw [length_remaining_start]
    refine wp_wrap (fun hn hlt => ?_) fun hf => ?_
    · refine hok hm ?_ _ _ _ hlive (events_loaded ..) rfl
      rw [clock_loaded] at hn
      rintro (h | h | h)
      · exact h h0
      · exact nomatch h.symm.trans hn
      · omega
    · rw [clock_loaded] at hf
      exact And.left (hfail hm (.inr hf) _ (show live _ = _ from hlive))
  · rw [hret] at h1
    exact (hfail hm (.inl h1) _ hlive).2 err

/-- How a load that does not fail ends. -/
structure Ends (env : Env) (data : LoadData) (s : Vm) (v : JSResult) (s' : Vm) : Prop where
  value : v ≠ .exception
  call : dataCall s'.events =
    some (if data.length = NO_VALUE then unread env data else data.length, (start data).offset)
  live : live s' = owned v ++ live s

/-- How a load that fails ends: it keeps its block if it has allocated one. -/
def Leaves (env : Env) (data : LoadData) (s s' : Vm) : Prop :=
  (LoadLeaks env s.clock data ∧ live s' = s.nextBlock :: live s) ∨
    (¬LoadLeaks env s.clock data ∧ live s' = live s)

theorem dataCall_append {events : List Event} {e : Event} {cap offset : Nat}
    (h : capAndOffset e = some (cap, offset)) : dataCall (events ++ [e]) = some (cap, offset) := by
  rw [dataCall, List.filterMap_append, List.filterMap_cons_some h]
  exact List.getLast?_concat ..

/-- The read with which a load ends, from the state `s₀` before its block is allocated. -/
theorem wp_readInto_ends {data : LoadData} {length : Nat} {s₀ : Vm} {Q : JSResult → Vm → Prop}
    {R : Stop → Vm → Prop} (hlive : live s₀ = live s) (hnext : s₀.nextBlock = s.nextBlock)
    (hlength : (if data.length = NO_VALUE then unread env data else data.length) = length)
    (hF : LoadFails env s.clock data ↔
      env.malloc s₀.clock length = false ∨ ReadFails env s₀.clock data length)
    (hL : LoadLeaks env s.clock data ↔
      env.malloc s₀.clock length = true ∧ ReadFails env s₀.clock data length)
    (hfail : LoadFails env s.clock data → ∀ s', Leaves env data s s' →
      Q .exception s' ∧ ∀ err, R (.check err) s')
    (hok : ¬LoadFails env s.clock data → ∀ v s', Ends env data s v s' → Q v s') :
    WP (readInto env (start data) length) s₀ Q R := by
  refine wp_readInto_cases ?_ ?_ ?_
  · intro hm s' err hs
    have hkept : ¬LoadLeaks env s.clock data := fun h => nomatch hm.symm.trans (hL.mp h).1
    exact And.right (hfail (hF.mpr (.inl hm)) s' (.inr ⟨hkept, hs.trans hlive⟩)) err
  · intro hm hf s' hs
    refine hfail (hF.mpr (.inr hf)) s' (.inl ⟨hL.mpr ⟨hm, hf⟩, ?_⟩)
    rw [hs, hlive, hnext]
  · intro hm hf len s' e hs hev he
    refine hok (fun h => ?_) _ s' ⟨JSResult.noConfusion, ?_, ?_⟩
    · exact (hF.mp h).elim (fun h => nomatch hm.symm.trans h) hf
    · rw [hev, hlength]
      exact dataCall_append he
    · rw [hs, hlive, hnext]
      rfl

/-- Whether a load fails, and what it leaves. -/
theorem wp_syscallLoad {data : LoadData} {Q : JSResult → Vm → Prop} {R : Stop → Vm → Prop}
    (hfail : LoadFails env s.clock data → ∀ s', Leaves env data s s' →
      Q .exception s' ∧ ∀ err, R (.check err) s')
    (hok : ¬LoadFails env s.clock data → ∀ v s', Ends env data s v s' → Q v s') :
    WP (syscallLoad env data) s Q R := by
  have hret : loadRet env s (start data) = env.kernel.loadRet s.clock data.request := by
    rw [loadRet, request_start]
  rw [syscallLoad_eq]
  refine WP.ite (fun h0 => ?_) fun h0 => WP.ite (fun hn => ?_) fun hn => ?_
  · -- the length only
    have hF : LoadFails env s.clock data ↔ env.kernel.loadRet s.clock data.request ≠ 0 := by
      rw [LoadFails, if_pos h0]
    have hL : ¬LoadLeaks env s.clock data := by rw [LoadLeaks, if_pos h0]; exact not_false
    refine wp_load_check (fun hr => ?_) fun hr err => ?_
    · rw [hret] at hr
      refine hok (mt hF.mp (not_not_intro hr)) _ _ ⟨fun h => ?_, ?_, live_loaded ..⟩
      · exact newUint32_ne_exception _ (JSResult.value.inj h)
      rw [events_loaded, if_neg (by rw [h0]; decide)]
      exact dataCall_append rfl
    · rw [hret] at hr
      exact And.right (hfail (hF.mpr hr) _ (.inr ⟨hL, live_loaded ..⟩)) err
  · -- the length, then the item to its end
    have hF : LoadFails env s.clock data ↔ env.kernel.loadRet s.clock data.request ≠ 0 ∨
        env.malloc (s.clock + 1) (unread env data) = false ∨
          ReadFails env (s.clock + 1) data (unread env data) := by
      rw [LoadFails, if_neg h0, if_pos hn]
    have hL : LoadLeaks env s.clock data ↔ env.kernel.loadRet s.clock data.request = 0 ∧
        env.malloc (s.clock + 1) (unread env data) = true ∧
          ReadFails env (s.clock + 1) data (unread env data) := by
      rw [LoadLeaks, if_neg h0, if_pos hn]
    refine wp_load_check (fun hr => ?_) fun hr err => ?_
    · rw [hret] at hr
      rw [length_remaining_start]
      refine wp_readInto_ends (live_loaded ..) (nextBlock_loaded ..) (if_pos hn) ?_ ?_ hfail hok
      · rw [hF, clock_loaded, or_iff_right (not_not_intro hr)]
      · rw [hL, clock_loaded, and_iff_right hr]
    · rw [hret] at hr
      exact And.right (hfail (hF.mpr (.inl hr)) _ (.inr ⟨fun h => hr (hL.mp h).1, live_loaded ..⟩)) err
  · -- a given length
    refine wp_readInto_ends rfl rfl (if_neg hn) ?_ ?_ hfail hok
    · rw [LoadFails, if_neg h0, if_neg hn]
    · rw [LoadLeaks, if_neg h0, if_neg hn]

/-! ## Memory handed to the kernel -/

/-- A load whose capacity is at most the size of its block. -/
def Owned : Event → Prop
  | .load _ _ size cap _ _ => cap ≤ size
  | _ => True

theorem inBounds_iff_owned {b : Binding} {a : Args} :
    InBounds env b a s ↔ ∀ e ∈ (run env b a s).2.events, Owned e := by
  constructor
  · intro h e he
    cases e with
    | load req addr size cap offset ret => exact h _ _ _ _ _ _ he
    | arg | conv | exec | spawn | setContent | debug => exact trivial
  · exact fun h _ _ _ _ _ _ he => h _ he

/-- A call whose log starts empty and where only arguments were read. -/
theorem owned_of_reads {s s' : Vm} {ok : Bool} (h : Reads { s with events := [] } s' ok) :
    ∀ e ∈ s'.events, Owned e := by
  obtain ⟨ev, rfl, hr, -⟩ := h
  intro e he
  rcases hr e he with ⟨i, rfl⟩ | ⟨ok, rfl⟩
  · exact trivial
  · exact trivial

/-- A read into a fresh block makes at most one load, of at most its size. -/
theorem wp_readInto_events (data : LoadData) (length : Nat) :
    WP (readInto env data length) s
      (fun _ s' => ∃ ev, s'.events = s.events ++ ev ∧ ∀ e ∈ ev, Owned e)
      (fun _ s' => ∃ ev, s'.events = s.events ++ ev ∧ ∀ e ∈ ev, Owned e) := by
  have hl : ∃ ev, (loaded env (allocated env s length) (some s.nextBlock) length data).events =
      s.events ++ ev ∧ ∀ e ∈ ev, Owned e := by
    refine ⟨_, events_loaded .., fun e he => ?_⟩
    rw [List.mem_singleton.mp he, loadEvent, sizeAt_allocated]
    exact Nat.le_refl _
  refine wp_readInto (fun _ _ => ⟨[], by simp, by simp⟩) (fun _ _ => ?_) (fun _ _ _ => hl)
  exact wp_wrap (fun _ _ => hl) fun _ => hl

/-- A load of a given length hands the kernel its own block only. -/
theorem owned_syscallLoad {data : LoadData} (hl : data.length ≠ NO_VALUE)
    (hs : ∀ e ∈ s.events, Owned e) :
    WP (syscallLoad env data) s (fun _ s' => ∀ e ∈ s'.events, Owned e)
      (fun _ s' => ∀ e ∈ s'.events, Owned e) := by
  rw [syscallLoad_eq]
  refine WP.ite (fun h0 => ?_) fun _ => ?_
  · have hev : ∀ e ∈ (loaded env s none data.length (start data)).events, Owned e := by
      intro e he
      rw [events_loaded] at he
      rcases List.mem_append.mp he with h | h
      · exact hs e h
      · rw [List.mem_singleton.mp h, h0]
        exact Nat.le_refl 0
    exact wp_load_check (fun _ => hev) fun _ _ => hev
  · rw [if_neg hl]
    have hev (s' : Vm) (h : ∃ ev, s'.events = s.events ++ ev ∧ ∀ e ∈ ev, Owned e) :
        ∀ e ∈ s'.events, Owned e := by
      obtain ⟨ev, he, ho⟩ := h
      rw [he]
      exact fun e he => (List.mem_append.mp he).elim (hs e) (ho e)
    exact (wp_readInto_events _ _).mono (fun _ => hev) (fun _ => hev)

/-- A load to the end hands the kernel a null address with capacity `2⁶⁴ - 1`. -/
theorem overruns_syscallLoad {data : LoadData} (hl : data.length = NO_VALUE) :
    WP (syscallLoad env data) s (fun _ s' => ∃ e ∈ s'.events, ¬Owned e)
      (fun _ s' => ∃ e ∈ s'.events, ¬Owned e) := by
  rw [syscallLoad_eq, hl, if_neg (by decide), if_pos rfl]
  have hev : ∃ e ∈ (loaded env s none NO_VALUE (start data)).events, ¬Owned e :=
    ⟨_, by rw [events_loaded]; exact List.mem_append_right _ (List.mem_singleton_self _),
      by simp [loadEvent, Owned, Vm.sizeAt, NO_VALUE]⟩
  refine wp_load_check (fun _ => ?_) fun _ _ => hev
  have hmono (s' : Vm) (h : ∃ ev, s'.events = (loaded env s none NO_VALUE (start data)).events ++ ev ∧
      ∀ e ∈ ev, Owned e) : ∃ e ∈ s'.events, ¬Owned e := by
    obtain ⟨ev, he, -⟩ := h
    obtain ⟨e, hm, ho⟩ := hev
    exact ⟨e, by rw [he]; exact List.mem_append_left _ hm, ho⟩
  exact (wp_readInto_events _ _).mono (fun _ => hmono) (fun _ => hmono)

/-- A load built on `parse_args`, from what it does with its data. -/
theorem wp_loadWith {hasField : Bool} {func : LoadFunc} {a : Args} {Q : JSResult → Vm → Prop}
    {R : Stop → Vm → Prop}
    (h0 : ∀ d, loadData env.engine hasField a func = some d → ∀ s', Reads s s' true →
      WP (syscallLoad env d) s' Q R)
    (h1 : loadData env.engine hasField a func = none → ∀ s', Reads s s' false → R .exception s') :
    WP (loadWith env hasField func a) s Q R := by
  refine WP.seq (computes_parseArgs env hasField a func s) ?_ ?_
  · rintro e s' ⟨hn, rfl, hr⟩
    exact h1 hn s' hr
  · rintro d s' ⟨hd, hr⟩
    exact h0 d hd s' hr

/-- A load binding hands the kernel memory it does not own exactly where it
is built on `parse_args` and its arguments ask for the item to its end. -/
theorem inBounds_iff (env : Env) (b : Binding) (a : Args) (s : Vm)
    (hb : (loader b).isSome ∨ (hashLoader b).isSome) :
    InBounds env b a s ↔
      ∀ hasField func, loader b = some (hasField, func) → ¬ReadsToEnd env.engine hasField a := by
  rw [inBounds_iff_owned]
  constructor
  · intro h hasField func hl hend
    obtain ⟨d, hd, hlen⟩ := readsToEnd_iff.mp hend
    have hw : WP (loadWith env hasField func a) { s with events := [] }
        (fun _ s' => ∃ e ∈ s'.events, ¬Owned e) (fun _ s' => ∃ e ∈ s'.events, ¬Owned e) := by
      refine wp_loadWith (fun d' hd' s' _ => ?_) fun hn => nomatch hd.symm.trans hn
      obtain rfl := Option.some.inj (hd.symm.trans hd')
      exact overruns_syscallLoad hlen
    rw [← func_of_loader hl] at hw
    obtain ⟨e, he, ho⟩ := call_of_wp (fun _ s' => ∃ e ∈ s'.events, ¬Owned e) hw
    exact ho (h e he)
  · intro h
    refine call_of_wp (fun _ s' => ∀ e ∈ s'.events, Owned e) ?_
    rcases hb with hb | hb
    · obtain ⟨⟨hasField, func⟩, hl⟩ := Option.isSome_iff_exists.mp hb
      rw [func_of_loader hl]
      refine wp_loadWith (fun d hd s' hr => ?_) fun _ s' hr => owned_of_reads hr
      refine owned_syscallLoad (fun hlen => ?_) (owned_of_reads hr)
      exact h hasField func hl (readsToEnd_iff.mpr ⟨d, hd, hlen⟩)
    · obtain ⟨func, hl⟩ := Option.isSome_iff_exists.mp hb
      rw [func_of_hashLoader hl]
      exact owned_syscallLoad (show 32 ≠ NO_VALUE by decide) (by simp)

theorem inBounds_loadCell : InBounds world .loadCell (loadCellArgs [0, 1, 8]) Vm.init := by
  refine (inBounds_iff world .loadCell (loadCellArgs [0, 1, 8]) Vm.init (.inl rfl)).mpr ?_
  rintro _ _ ⟨⟩ ⟨-, h⟩
  rcases h with h | h
  · exact absurd h (show ¬3 ≤ 2 by decide)
  · nomatch h

/-- Without a length, `load_cell` lets the kernel store an item at address 0. -/
theorem overruns_loadCell : ¬InBounds world .loadCell (loadCellArgs [0, 1]) Vm.init := fun h =>
  absurd (h (.cell 0 1) none 0 NO_VALUE 0 0 (by decide)) (by decide)

end CkbJs.Proof.CkbModule
