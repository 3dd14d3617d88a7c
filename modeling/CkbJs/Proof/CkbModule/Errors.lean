import CkbJs.Proof.CkbModule.Load

/-!
# Failures that surface as exceptions

A program is `Surfacing` from a state if, started without a failure in the
log, it ends normally only without one and otherwise stops with an exception.
The loads, `set_content` and `exit` are; `debug`, `exec_cell` and `spawn_cell`
are not, since they go on after a failed `JS_ToCString`, and `exec_cell` after
a failed `ckb_exec_cell`. `surfaces_iff` says exactly when each call of a
binding surfaces its failures.
-/

namespace CkbJs.Proof.CkbModule

open CkbJs.Impl CkbJs.Impl.CkbModule CkbJs.Spec.CkbModule

variable {env : Env} {s : Vm}

/-- No failure is in the log. -/
def Clean (s : Vm) : Prop := s.events.any failed = false

/-- The way to stop that a script sees as an exception. -/
def Raises (e : Stop) : Prop := e.outcome = .returned .exception

/-- A way to stop in which no failure is lost. -/
def Raised (e : Stop) (s : Vm) : Prop := Raises e ∨ e.outcome ≠ .undefined ∧ Clean s

theorem raised {s' : Vm} (err : Int) : Raised (.check err) s' := .inl rfl

theorem raises_of_isCheck {e : Stop} (h : IsCheck e) : Raises e := by
  obtain ⟨err, rfl⟩ := h; rfl

theorem Clean.reads {s s' : Vm} (hs : Clean s) (h : Reads s s' true) : Clean s' := h.failed.trans hs

theorem Clean.append {s s' : Vm} {e : Event} (hs : Clean s) (he : failed e = false)
    (h : s'.events = s.events ++ [e]) : Clean s' := by
  unfold Clean at hs ⊢
  rw [h, List.any_append, hs]
  simp [he]

/-- `x` stops with an exception, or leaves a clean log. -/
def Surfacing {α : Type} (x : M α) (s : Vm) : Prop := WP x s (fun _ s' => Clean s') Raised

theorem Surfacing.surfaces {b : Binding} {a : Args}
    (h : Surfacing (b.func env a) { s with events := [] }) : Surfaces env b a s := by
  refine call_of_wp (fun o s' => o ≠ .undefined ∧
    (s'.events.any failed = true → o = .returned .exception)) (h.mono ?_ ?_)
  · exact fun v s' hc => ⟨nofun, fun hf => nomatch hc.symm.trans hf⟩
  · rintro e s' (he | ⟨he, hc⟩)
    · exact ⟨by rw [he]; exact nofun, fun _ => he⟩
    · exact ⟨he, fun hf => nomatch hc.symm.trans hf⟩

theorem Surfacing.bind_computes {α β : Type} {x : M α} {r : Option α} {f : α → M β}
    {P : Stop → Prop} (hx : Computes x r P) (hs : Clean s) (hP : ∀ e, P e → Raises e)
    (hf : ∀ y, r = some y → ∀ s', s'.clock = s.clock → Clean s' → Surfacing (f y) s') :
    Surfacing (x >>= f) s := by
  refine WP.seq (hx s) (fun e s' h => .inl (hP e h.2.1)) ?_
  rintro y s' ⟨hr, hR⟩
  exact hf y hr s' hR.clock (hs.reads hR)

/-! ## The loads -/

theorem failed_loadEvent {addr : Option Nat} {cap : Nat} {data : LoadData}
    (h : loadRet env s data = 0) : failed (loadEvent env s addr cap data) = false := by
  simp [loadEvent, failed, h]

theorem surfacing_readInto (data : LoadData) (length : Nat) (hs : Clean s) :
    Surfacing (readInto env data length) s := by
  refine wp_readInto (fun _ _ => raised _) (fun _ hr => ?_) fun _ _ _ => raised _
  have hclean : Clean (loaded env (allocated env s length) (some s.nextBlock) length data) :=
    Clean.append hs (failed_loadEvent hr) (events_loaded ..)
  exact wp_wrap (fun _ _ => hclean) fun _ => hclean

theorem surfacing_syscallLoad (data : LoadData) (hs : Clean s) :
    Surfacing (syscallLoad env data) s := by
  rw [syscallLoad_eq]
  have hload (hr : loadRet env s (start data) = 0) :
      Clean (loaded env s none data.length (start data)) :=
    hs.append (failed_loadEvent hr) (events_loaded ..)
  refine WP.ite (fun _ => ?_) fun _ => WP.ite (fun _ => ?_) fun _ => ?_
  · exact wp_load_check hload fun _ _ => raised _
  · exact wp_load_check (fun hr => surfacing_readInto _ _ (hload hr)) fun _ _ => raised _
  · exact surfacing_readInto _ _ hs

theorem surfacing_loadWith (hasField : Bool) (func : LoadFunc) (a : Args) (hs : Clean s) :
    Surfacing (loadWith env hasField func a) s :=
  Surfacing.bind_computes (computes_parseArgs env hasField a func) hs
    (by rintro e rfl; rfl) fun d _ s' _ hs' => surfacing_syscallLoad d hs'

/-- A call whose head has no value raises. -/
theorem surfaces_of_none {b : Binding} {a : Args} {α : Type} {x : M α} {f : α → M JSResult}
    (hb : b.func env a = x >>= f) (hx : Computes x none IsCheck) : Surfaces env b a s := by
  refine Surfacing.surfaces ?_
  rw [hb]
  exact Surfacing.bind_computes hx rfl (fun _ => raises_of_isCheck) fun y hy => nomatch hy

/-- A call whose head has no value raises, and one whose head has a value goes on with it. -/
theorem call_of_computes {b : Binding} {a : Args} {α : Type} {x : M α} {r : Option α} {f : α → M JSResult}
    (Φ : Outcome → Vm → Prop) (hb : b.func env a = x >>= f) (hx : Computes x r IsCheck)
    (hnone : r = none → ∀ s', Reads { s with events := [] } s' false → Φ (.returned .exception) s')
    (hsome : ∀ y, r = some y → ∀ s', Reads { s with events := [] } s' true →
      WP (f y) s' (fun v s'' => Φ (.returned v) s'') (fun e s'' => Φ e.outcome s'')) :
    Φ (run env b a s).1 (run env b a s).2 := by
  refine call_of_wp Φ ?_
  rw [hb]
  refine WP.seq (hx _) ?_ ?_
  · rintro e s' ⟨hr, ⟨err, rfl⟩, hs'⟩
    exact hnone hr s' hs'
  · rintro y s' ⟨hr, hs'⟩
    exact hsome y hr s' hs'

/-- A call whose head has a value goes on with it. -/
theorem call_of_some {b : Binding} {a : Args} {α : Type} {x : M α} {f : α → M JSResult} {y : α}
    (Φ : Outcome → Vm → Prop) (hb : b.func env a = x >>= f) (hx : Computes x (some y) IsCheck)
    (h : ∀ s', s'.clock = s.clock → Clean s' →
      WP (f y) s' (fun v s'' => Φ (.returned v) s'') (fun e s'' => Φ e.outcome s'')) :
    Φ (run env b a s).1 (run env b a s).2 := by
  refine call_of_computes Φ hb hx (fun hnone => nomatch hnone) fun y' heq s' hr => ?_
  cases heq
  exact h s' hr.clock (hr.failed.trans rfl)

/-! ## `set_content`, `exit` and `debug` -/

theorem syscallSetContent_eq (a : Args) : syscallSetContent env a =
    bufferArg env a (fun p => p.isSome) SyscallErrorUnknown >>= fun content => tick >>= fun t =>
      log (.setContent content (env.kernel.setContent t content)) >>= fun _ =>
        check (env.kernel.setContent t content) >>= fun _ => pure (.value .undefined) := by
  simp only [syscallSetContent, bufferArg, bind_assoc, pure_bind]

theorem surfacing_setContent (a : Args) (hs : Clean s) : Surfacing (syscallSetContent env a) s := by
  have h := computes_bufferArg env a (fun p => p.isSome) SyscallErrorUnknown rfl
  rw [syscallSetContent_eq]
  refine Surfacing.bind_computes h hs (fun _ => raises_of_isCheck) fun content _ s' _ hs' => ?_
  refine WP.bind (wp_tick (WP.bind (wp_log (WP.bind (wp_check (fun h0 => ?_) fun _ => raised _)))))
  exact Clean.append hs' (by simp [failed, h0]) rfl

theorem surfacing_exit (a : Args) (hs : Clean s) : Surfacing (syscallExit env a) s := by
  have heq : syscallExit env a = (a.get 0 >>= fun v =>
      convert (toInt32Free env.engine v) .exception >>= fun status => pure status) >>=
        fun status => throw (.exited (status.bmod (2 ^ 8))) := by
    simp only [syscallExit, bind_assoc, pure_bind]
  rw [heq]
  refine Surfacing.bind_computes (P := Raises) (computes_slot rfl Computes.of_pure) hs
    (fun _ h => h) fun status _ s' _ hs' => .inr ⟨nofun, hs'⟩

/-- A call that is undefined under the condition `U`, raises under `C`, and
otherwise ends normally with a failure in its log exactly under `F`. -/
theorem surfaces_iff_of {o : Outcome} {s' : Vm} {U C F : Prop} (hU : o = .undefined ↔ U)
    (hC : C → o = .returned .exception)
    (hF : ¬C → o ≠ .returned .exception ∧ (s'.events.any failed = true ↔ F)) :
    (o ≠ .undefined ∧ (s'.events.any failed = true → o = .returned .exception)) ↔ ¬U ∧ (F → C) := by
  refine and_congr (not_congr hU) ?_
  by_cases h : C
  · exact iff_of_true (fun _ => hC h) fun _ => h
  · rw [(hF h).2]
    exact ⟨fun hf hF' => absurd (hf hF') (hF h).1, fun hf hF' => hC (hf hF')⟩

theorem surfaces_debug (a : Args) :
    Surfaces env .debug a s ↔ (toCString env.engine (a.slot 0)).isSome := by
  have h : WP (syscallDebug env a) { s with events := [] }
      (fun v s' => v ≠ .exception ∧
        (s'.events.any failed = true ↔ toCString env.engine (a.slot 0) = none))
      (fun _ _ => False) := by
    refine wp_cString env fun s₁ _ hf => WP.bind (wp_log (WP.of_pure ⟨?_, ?_⟩))
    · intro he
      cases he
    · simpa [failed] using hf
  refine call_of_wp (fun o s' => (o ≠ .undefined ∧ (s'.events.any failed = true →
    o = .returned .exception)) ↔ _) (h.mono (fun v s' hv => ?_) fun _ _ h => h.elim)
  rw [Option.isSome_iff_ne_none]
  have hU : Outcome.returned v = .undefined ↔ False := iff_of_false (by intro h; cases h) id
  rw [surfaces_iff_of (C := False) hU False.elim fun _ => ⟨fun h => hv.1 (Outcome.returned.inj h), hv.2⟩]
  exact and_iff_right not_false

/-! ## `exec_cell` -/

/-- The call of `ckb_exec_cell`, whose return code is dropped. -/
def runExec (env : Env) (t : Nat) (req : ExecReq) : M JSResult :=
  match env.kernel.exec t req with
  | none => throw (.replaced req)
  | some ret => log (.exec req ret) >>= fun _ => pure (.value .undefined)

theorem wp_runExec {t : Nat} {req : ExecReq} {Q : JSResult → Vm → Prop} {R : Stop → Vm → Prop}
    (h0 : env.kernel.exec t req = none → R (.replaced req) s)
    (h1 : ∀ ret, env.kernel.exec t req = some ret →
      Q (.value .undefined) { s with events := s.events ++ [.exec req ret] }) :
    WP (runExec env t req) s Q R := by
  unfold runExec
  cases h : env.kernel.exec t req with
  | none => exact h0 h
  | some ret => exact h1 ret h

/-- `exec_cell` after its head. -/
def execTail (env : Env) (a : Args) (h : List Byte × Nat × Nat × Nat) : M JSResult :=
  passArgv env a 4 (List.range' 4 (a.argc - 4)) >>= fun argv => tick >>= fun t =>
    runExec env t
      { codeHash := h.1, hashType := h.2.1 % 2 ^ 8, offset := h.2.2.1, length := h.2.2.2
        argc := a.argc - 4, argv := argv }

theorem syscallExecCell_eq (a : Args) :
    syscallExecCell env a = execArgs env a >>= execTail env a := by
  simp only [syscallExecCell, execArgs, execTail, bind_assoc, pure_bind]
  rfl

/-- `exec_cell` after its head never raises; a failure is in the log where a
trailing argument has no C string or `ckb_exec_cell` returned an error. -/
theorem wp_execTail {a : Args} {h : List Byte × Nat × Nat × Nat} (hs : Clean s) {F : Prop}
    (hF : F ↔ TrailingFails env.engine a 4 ∨ (a.argc ≤ 4 + 256 ∧
      ∃ ret, env.kernel.exec s.clock (execReq env.engine a h) = some ret ∧ ret ≠ 0)) :
    WP (execTail env a h) s
      (fun v s' => (Outcome.returned v = .undefined ↔ 4 + 256 < a.argc) ∧
        Outcome.returned v ≠ .returned .exception ∧ (s'.events.any failed = true ↔ F))
      (fun e s' => (e.outcome = .undefined ↔ 4 + 256 < a.argc) ∧
        e.outcome ≠ .returned .exception ∧ (s'.events.any failed = true ↔ F)) := by
  have hclean {P : Prop} : (s.events.any failed = true ∨ P) ↔ P :=
    or_iff_right (Bool.eq_false_iff.mp hs)
  refine WP.seq (wp_passArgv env rfl (Nat.le_refl 4) (by decide)) ?_ ?_
  · rintro e s' ⟨hlt, rfl, -, hf⟩
    refine ⟨iff_of_true rfl hlt, nofun, ?_⟩
    rw [hf, hclean, hF]
    exact (or_iff_left fun ⟨hle, _⟩ => by omega).symm
  · rintro argv s' ⟨hle, hreads, rfl, hf⟩
    refine WP.bind (wp_tick ?_)
    rw [hreads.clock]
    have hinside {o : Outcome} (ho : o ≠ .undefined) : o = .undefined ↔ 4 + 256 < a.argc :=
      iff_of_false ho (Nat.not_lt.mpr hle)
    refine wp_runExec (fun hx => ⟨hinside nofun, nofun, ?_⟩) fun ret hx => ⟨hinside nofun, nofun, ?_⟩
    · rw [hf, hclean, hF]
      refine (or_iff_left ?_).symm
      rintro ⟨-, ret, hret, -⟩
      exact nomatch hx.symm.trans hret
    · have hret : (∃ r, env.kernel.exec s.clock (execReq env.engine a h) = some r ∧ r ≠ 0) ↔ ret ≠ 0 := by
        constructor
        · rintro ⟨r, hr, hne⟩
          obtain rfl := Option.some.inj (hx.symm.trans hr)
          exact hne
        · exact fun hne => ⟨ret, hx, hne⟩
      rw [hF, hret, List.any_append, Bool.or_eq_true, hf, hclean, and_iff_right hle]
      refine or_congr Iff.rfl ?_
      simp [failed]

/-- `exec_cell` surfaces its failures unless its head is read and there are too
many arguments, a trailing one has no C string or `ckb_exec_cell` returns an error. -/
theorem surfaces_execCell (a : Args) :
    Surfaces env .execCell a s ↔ SurfacesWhen env a s .execCell := by
  unfold SurfacesWhen
  cases hhead : execHead env.engine a with
  | none =>
    have hx := computes_execArgs env a
    rw [hhead] at hx
    exact iff_of_true (surfaces_of_none (syscallExecCell_eq a) hx) nofun
  | some h =>
    have hx := computes_execArgs env a
    rw [hhead] at hx
    have hb : Binding.func env .execCell a = execArgs env a >>= execTail env a :=
      syscallExecCell_eq a
    have hcall := call_of_some (s := s) (fun o s' => (o = .undefined ↔ 4 + 256 < a.argc) ∧
        o ≠ .returned .exception ∧
        (s'.events.any failed = true ↔ TrailingFails env.engine a 4 ∨ (a.argc ≤ 4 + 256 ∧
          ∃ ret, env.kernel.exec s.clock (execReq env.engine a h) = some ret ∧ ret ≠ 0)))
      hb hx fun s' hclock hs => wp_execTail hs (by rw [hclock])
    rw [Surfaces, surfaces_iff_of (C := False) hcall.1 nofun fun _ => hcall.2, Nat.not_lt]
    constructor
    · rintro ⟨hle, hf⟩ h' ⟨⟩
      refine ⟨hle, fun ht => hf (.inl ht), fun ret hret => ?_⟩
      exact Decidable.byContradiction fun hne => hf (.inr ⟨hle, ret, hret, hne⟩)
    · intro hw
      obtain ⟨hle, ht, hret⟩ := hw h rfl
      exact ⟨hle, fun hf => hf.elim ht fun ⟨_, ret, hr, hne⟩ => hne (hret ret hr)⟩

/-! ## `spawn_cell` -/

/-- The call of `ckb_spawn_cell` and the object made of its reply. -/
def runSpawn (env : Env) (content t : Nat) (req : SpawnReq) : M JSResult := do
  let reply := env.kernel.spawn t req
  log (.spawn req reply.ret)
  check reply.ret
  modify fun s => s.write content reply.content
  let newObject := env.newObject (← tick)
  check2 newObject SyscallErrorMemory
  let exitCode := newUint32 (reply.exitCode.toInt % 2 ^ 32).toNat
  let content2 ← newArrayBuffer env content reply.contentLength
  return .spawned exitCode content2

/-- What a spawn leaves: an event, and the same live blocks. -/
structure Spawns (env : Env) (s s' : Vm) (t : Nat) (req : SpawnReq) : Prop where
  events : s'.events = s.events ++ [.spawn req (env.kernel.spawn t req).ret]
  live : live s' = live s

theorem wp_runSpawn {content t : Nat} {req : SpawnReq} {Q : JSResult → Vm → Prop}
    {R : Stop → Vm → Prop}
    (hC : (env.kernel.spawn t req).ret ≠ 0 ∨ env.newObject s.clock = false → ∀ err s',
      Spawns env s s' t req → R (.check err) s')
    (hQ : (env.kernel.spawn t req).ret = 0 → env.newObject s.clock = true → ∀ content2 s',
      Spawns env s s' t req →
      (env.newArrayBuffer (s.clock + 1) = true ∧ (env.kernel.spawn t req).contentLength < 2 ^ 31 ∧
          content2 = some (content, (env.kernel.spawn t req).contentLength) ∨
        (env.newArrayBuffer (s.clock + 1) = false ∨ 2 ^ 31 ≤ (env.kernel.spawn t req).contentLength) ∧
          content2 = none) →
      Q (.spawned (newUint32 ((env.kernel.spawn t req).exitCode.toInt % 2 ^ 32).toNat) content2) s') :
    WP (runSpawn env content t req) s Q R := by
  refine WP.bind (wp_log (WP.bind (wp_check (fun h0 => ?_) fun h => hC (.inl h) _ _ ⟨rfl, rfl⟩)))
  refine WP.bind (WP.of_modify (WP.bind (wp_tick (WP.bind (wp_check2 (fun h1 => ?_) ?_)))))
  · refine WP.bind (wp_newArrayBuffer (fun hn hlt => WP.of_pure ?_) fun h => WP.of_pure ?_)
    · exact hQ h0 h1 _ _ ⟨rfl, live_write ..⟩ (.inl ⟨hn, hlt, rfl⟩)
    · exact hQ h0 h1 _ _ ⟨rfl, live_write ..⟩ (.inr ⟨h, rfl⟩)
  · exact fun h => hC (.inr h) _ _ ⟨rfl, live_write ..⟩

/-- `spawn_cell` after its head. -/
def spawnTail (env : Env) (a : Args) (h : List Byte × Nat × Int × Int × Int × Int) : M JSResult :=
  passArgv env a 3 (List.range' 3 (a.argc - 3)) >>= fun argv =>
    malloc env (size h.2.2.1) >>= fun content =>
      check2 content.isSome SyscallErrorArgument >>= fun _ => tick >>= fun t =>
        runSpawn env (content.getD 0) t
          { codeHash := h.1, hashType := h.2.1 % 2 ^ 8
            offset := size h.2.2.2.2.1 % 2 ^ 32, length := size h.2.2.2.2.2 % 2 ^ 32
            argc := a.argc - 3, argv := argv
            memoryLimit := size h.2.2.2.1, contentLength := size h.2.2.1 }

theorem syscallSpawnCell_eq (a : Args) :
    syscallSpawnCell env a = spawnArgs env a >>= spawnTail env a := by
  simp only [syscallSpawnCell, spawnArgs, spawnTail, bind_assoc, pure_bind]
  rfl

/-- `spawn_cell` after its head raises under the condition `C` only; a failure
is in the log where a trailing argument has no C string. -/
theorem wp_spawnTail {a : Args} {h : List Byte × Nat × Int × Int × Int × Int} (hs : Clean s) {C : Prop}
    (hC : C ↔ a.argc ≤ 3 + 256 ∧ (env.malloc s.clock (size h.2.2.1) = false ∨
      (env.kernel.spawn (s.clock + 1) (spawnReq env.engine a h)).ret ≠ 0 ∨
      env.newObject (s.clock + 2) = false)) :
    WP (spawnTail env a h) s
      (fun v s' => (Outcome.returned v = .undefined ↔ 3 + 256 < a.argc) ∧
        (C → Outcome.returned v = .returned .exception) ∧
        (¬C → Outcome.returned v ≠ .returned .exception ∧
          (s'.events.any failed = true ↔ TrailingFails env.engine a 3)))
      (fun e s' => (e.outcome = .undefined ↔ 3 + 256 < a.argc) ∧
        (C → e.outcome = .returned .exception) ∧
        (¬C → e.outcome ≠ .returned .exception ∧
          (s'.events.any failed = true ↔ TrailingFails env.engine a 3))) := by
  have hclean {P : Prop} : (s.events.any failed = true ∨ P) ↔ P :=
    or_iff_right (Bool.eq_false_iff.mp hs)
  refine WP.seq (wp_passArgv env rfl (Nat.le_refl 3) (by decide)) ?_ ?_
  · rintro e s' ⟨hlt, rfl, -, hf⟩
    refine ⟨iff_of_true rfl hlt, fun hc => ?_, fun _ => ⟨nofun, hf.trans hclean⟩⟩
    have := (hC.mp hc).1
    omega
  · rintro argv s₁ ⟨hle, hreads, rfl, hf⟩
    have hclock := hreads.clock
    have hinside {o : Outcome} (ho : o ≠ .undefined) : o = .undefined ↔ 3 + 256 < a.argc :=
      iff_of_false ho (Nat.not_lt.mpr hle)
    refine WP.bind (wp_malloc (fun hm => ?_) fun hm => ?_)
    · refine WP.bind (wp_check2 (fun _ => WP.bind (wp_tick (wp_runSpawn ?_ ?_))) nofun)
      · intro hor err s' _
        have hc : C := by
          rw [hC]
          refine ⟨hle, .inr ?_⟩
          rw [← hclock]
          exact hor
        exact ⟨hinside nofun, fun _ => rfl, fun hn => absurd hc hn⟩
      · intro h0 h1 content2 s' hs' _
        have hc : ¬C := by
          rw [hC, ← hclock]
          rintro ⟨-, h | h | h⟩
          · exact nomatch h.symm.trans hm
          · exact h h0
          · exact nomatch h.symm.trans h1
        refine ⟨hinside nofun, fun h => absurd h hc, fun _ => ⟨nofun, ?_⟩⟩
        rw [hs'.events, h0, List.any_append, show [Event.spawn _ 0].any failed = false from rfl,
          Bool.or_false]
        exact hf.trans hclean
    · refine WP.bind (wp_check2 nofun fun _ => ⟨hinside nofun, fun _ => rfl, fun hn => absurd ?_ hn⟩)
      rw [hC, ← hclock]
      exact ⟨hle, .inl hm⟩

/-- `spawn_cell` surfaces its failures unless its head is read and there are too
many arguments, or a trailing one has no C string and nothing later fails. -/
theorem surfaces_spawnCell (a : Args) :
    Surfaces env .spawnCell a s ↔ SurfacesWhen env a s .spawnCell := by
  unfold SurfacesWhen
  have hx := computes_spawnArgs env a
  have hb : Binding.func env .spawnCell a = spawnArgs env a >>= spawnTail env a :=
    syscallSpawnCell_eq a
  cases hhead : spawnHead env.engine a with
  | none =>
    rw [hhead] at hx
    exact iff_of_true (surfaces_of_none hb hx) nofun
  | some h =>
    rw [hhead] at hx
    have hcall := call_of_some (s := s) (fun o s' => (o = .undefined ↔ 3 + 256 < a.argc) ∧
        (_ → o = .returned .exception) ∧
        (¬_ → o ≠ .returned .exception ∧
          (s'.events.any failed = true ↔ TrailingFails env.engine a 3)))
      hb hx fun s' hclock hs => wp_spawnTail hs (by rw [hclock])
    rw [Surfaces, surfaces_iff_of hcall.1 hcall.2.1 hcall.2.2, Nat.not_lt]
    constructor
    · rintro ⟨hle, hw⟩ _ ⟨⟩
      exact ⟨hle, fun ht => (hw ht).2⟩
    · intro hw
      obtain ⟨hle, hw⟩ := hw h rfl
      exact ⟨hle, fun ht => ⟨hle, hw ht⟩⟩

/-! ## All bindings -/

theorem surfaces_of_loader {b : Binding} {a : Args} {hasField : Bool} {func : LoadFunc}
    (h : loader b = some (hasField, func)) : Surfaces env b a s := by
  refine Surfacing.surfaces ?_
  rw [func_of_loader h]
  exact surfacing_loadWith hasField func a rfl

theorem surfaces_of_hashLoader {b : Binding} {a : Args} {func : LoadFunc}
    (h : hashLoader b = some func) : Surfaces env b a s := by
  refine Surfacing.surfaces ?_
  rw [func_of_hashLoader h]
  exact surfacing_syscallLoad _ rfl

/-- Exactly when a call of a binding surfaces every failed conversion and
kernel call as an exception. -/
theorem surfaces_iff (env : Env) (b : Binding) (a : Args) (s : Vm) :
    Surfaces env b a s ↔ SurfacesWhen env a s b := by
  cases b with
  | debug => exact surfaces_debug a
  | execCell => exact surfaces_execCell a
  | spawnCell => exact surfaces_spawnCell a
  | exit => exact iff_of_true (Surfacing.surfaces (surfacing_exit a rfl)) trivial
  | setContent => exact iff_of_true (Surfacing.surfaces (surfacing_setContent a rfl)) trivial
  | loadTxHash | loadScriptHash => exact iff_of_true (surfaces_of_hashLoader rfl) trivial
  | loadTransaction | loadScript | loadCell | loadInput | loadHeader | loadWitness | loadCellData
  | loadCellByField | loadHeaderByField | loadInputByField =>
    exact iff_of_true (surfaces_of_loader rfl) trivial

/-- `exec_cell` of a cell dep that is not found returns undefined. -/
theorem execCell_hides_failure :
    ¬Surfaces world .execCell
      (callFrame 4 [.object 0, .int 0, .int 0, .int 0] fun _ => .undefined) Vm.init := fun h =>
  nomatch h.2 (by decide)

end CkbJs.Proof.CkbModule
