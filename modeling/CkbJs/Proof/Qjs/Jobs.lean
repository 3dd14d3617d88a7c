import CkbJs.Proof.Qjs.Steps

/-!
# Jobs and rejections that a run leaves behind

Quiet operations leave the runtime calm (`calm_run`); where job entries can be
allocated, a single operation that is not quiet leaves it unsettled for good
(`unsettled_of_not_quiet`, `unsettled_step`), because nothing ever runs a job.
`main` touches the runtime through operations of the engine only
(`keepsLog_main`), so the runs that return 0 and leave nothing behind are exactly
the quiet ones (`main_settled_iff`).
-/

namespace CkbJs.Proof.Qjs

open CkbJs.Impl CkbJs.Impl.Qjs CkbJs.Spec.Qjs

/-! ## One operation -/

/-- A pending promise with a handler has a reaction. -/
def Tracked (rt : Runtime) : Prop :=
  ∀ p ∈ rt.promises, p.state = .pending → p.isHandled = true → 0 < p.reactions

/-- There is no job, and no promise is rejected. -/
def Calm (rt : Runtime) : Prop := rt.jobs = [] ∧ ∀ p ∈ rt.promises, p.state ≠ .rejected

theorem Calm.settled {rt : Runtime} (h : Calm rt) : Settled rt :=
  ⟨h.1, fun p hp hu => h.2 p hp hu.1⟩

@[simp] theorem promises_enqueueJob (rt : Runtime) (job : Job) (alloc : Bool) :
    (rt.enqueueJob job alloc).promises = rt.promises := by
  unfold Runtime.enqueueJob; split <;> rfl

theorem jobs_enqueueJob_of_alloc (rt : Runtime) (job : Job) {alloc : Bool} (h : alloc = true) :
    (rt.enqueueJob job alloc).jobs ≠ [] := by
  rw [h]
  exact List.append_ne_nil_of_right_ne_nil _ (List.cons_ne_nil _ _)

/-- Enqueueing keeps the jobs there are. -/
theorem jobs_enqueueJob_ne_nil {rt : Runtime} (job : Job) (alloc : Bool) (h : rt.jobs ≠ []) :
    (rt.enqueueJob job alloc).jobs ≠ [] := by
  unfold Runtime.enqueueJob
  split
  · exact List.append_ne_nil_of_left_ne_nil h _
  · exact h

/-- The reactions that `fulfill_or_reject_promise` enqueues. -/
def enqueueAll (rt : Runtime) (job : Job) (alloc : Nat → Bool) (is : List Nat) : Runtime :=
  is.foldl (fun rt i => rt.enqueueJob job (alloc i)) rt

@[simp] theorem promises_enqueueAll (rt : Runtime) (job : Job) (alloc : Nat → Bool) (is : List Nat) :
    (enqueueAll rt job alloc is).promises = rt.promises := by
  induction is generalizing rt with
  | nil => rfl
  | cons i is ih => exact (ih _).trans (promises_enqueueJob ..)

theorem jobs_enqueueAll_ne_nil {rt : Runtime} (job : Job) (alloc : Nat → Bool) (is : List Nat)
    (h : rt.jobs ≠ []) : (enqueueAll rt job alloc is).jobs ≠ [] := by
  induction is generalizing rt with
  | nil => exact h
  | cons i is ih => exact ih (jobs_enqueueJob_ne_nil job (alloc i) h)

/-- What `fulfill_or_reject_promise` does to a pending promise. -/
theorem fulfillOrReject_pending {rt : Runtime} {p : Nat} {s : Promise} (isReject : Bool)
    (alloc : Nat → Bool) (hp : rt.promises[p]? = some s) (hs : s.state = .pending) :
    rt.fulfillOrReject p isReject alloc =
      let s' := { s with state := if isReject then .rejected else .fulfilled, reactions := 0 }
      enqueueAll { rt with promises := rt.promises.set p s' } (.promiseReaction p isReject) alloc
        (List.range s.reactions) := by
  unfold Runtime.fulfillOrReject
  rw [hp]
  exact if_neg (not_not_intro hs)

/-- A promise that is not there or not pending is left alone. -/
theorem fulfillOrReject_other {rt : Runtime} {p : Nat} (isReject : Bool) (alloc : Nat → Bool)
    (h : ∀ s, rt.promises[p]? = some s → s.state ≠ .pending) :
    rt.fulfillOrReject p isReject alloc = rt := by
  unfold Runtime.fulfillOrReject
  cases hp : rt.promises[p]? with
  | none => rfl
  | some s => exact if_pos (h s hp)

theorem performThen_pending {rt : Runtime} {p : Nat} {s : Promise} (alloc : Nat → Bool)
    (hp : rt.promises[p]? = some s) (hs : s.state = .pending) :
    let s' := { s with reactions := s.reactions + 1, isHandled := true }
    rt.performThen p alloc = { rt with promises := rt.promises.set p s' } := by
  unfold Runtime.performThen
  rw [hp]
  exact if_pos hs

theorem performThen_settled {rt : Runtime} {p : Nat} {s : Promise} (alloc : Nat → Bool)
    (hp : rt.promises[p]? = some s) (hs : s.state ≠ .pending) :
    rt.performThen p alloc =
      { rt.enqueueJob (.promiseReaction p (s.state = .rejected)) (alloc 0) with
        promises := rt.promises.set p { s with isHandled := true } } := by
  unfold Runtime.performThen
  rw [hp]
  dsimp only
  rw [if_neg hs, promises_enqueueJob]

theorem performThen_none {rt : Runtime} {p : Nat} (alloc : Nat → Bool) (hp : rt.promises[p]? = none) :
    rt.performThen p alloc = rt := by
  unfold Runtime.performThen; rw [hp]

/-- What holds of the promises and of the new one holds after a change. -/
theorem forall_mem_set {P : Promise → Prop} {ps : List Promise} {p : Nat} {s : Promise}
    (h : ∀ q ∈ ps, P q) (hs : P s) : ∀ q ∈ ps.set p s, P q := fun q hq =>
  (List.mem_or_eq_of_mem_set hq).elim (h q) fun he => he ▸ hs

/-! ## Quiet operations -/

theorem calm_step {rt : Runtime} {op : Op} (h : Calm rt) (hq : Quiet rt op) : Calm (rt.step op) := by
  cases op with
  | newPromise =>
    refine ⟨h.1, fun p hp => ?_⟩
    rcases List.mem_append.mp hp with hp | hp
    · exact h.2 p hp
    · rw [List.mem_singleton.mp hp]; nofun
  | fulfillOrReject p isReject alloc =>
    show Calm (rt.fulfillOrReject p isReject alloc)
    by_cases hs : ∃ s, rt.promises[p]? = some s ∧ s.state = .pending
    · obtain ⟨s, hp, hs⟩ := hs
      obtain ⟨rfl, h0⟩ := hq s hp hs
      rw [fulfillOrReject_pending false alloc hp hs, h0]
      exact ⟨h.1, forall_mem_set h.2 nofun⟩
    · rw [fulfillOrReject_other isReject alloc fun s hp hs' => hs ⟨s, hp, hs'⟩]
      exact h
  | performThen p alloc =>
    show Calm (rt.performThen p alloc)
    cases hp : rt.promises[p]? with
    | none => rw [performThen_none alloc hp]; exact h
    | some s =>
      have hs := hq s hp
      rw [performThen_pending alloc hp hs]
      exact ⟨h.1, forall_mem_set h.2 (by rw [hs]; nofun)⟩
  | resolveThenable alloc => exact hq.elim
  | dynamicImport alloc => exact hq.elim

theorem calm_run {rt : Runtime} {ops : List Op} (h : Calm rt) (hq : AllQuiet rt ops) :
    Calm (rt.run ops) := by
  induction ops generalizing rt with
  | nil => exact h
  | cons op ops ih => exact ih (calm_step h hq.1) hq.2

/-! ## Operations that are not quiet -/

/-- A job is pending, or a promise is rejected without a handler. -/
def Unsettled (rt : Runtime) : Prop := rt.jobs ≠ [] ∨ ∃ p ∈ rt.promises, Unhandled p

theorem unsettled_iff {rt : Runtime} : Unsettled rt ↔ ¬Settled rt := by
  constructor
  · rintro (h | ⟨p, hp, hu⟩) hs
    · exact h hs.noJobs
    · exact hs.noUnhandled p hp hu
  · intro h
    by_cases hj : rt.jobs = []
    · refine .inr (Classical.byContradiction fun hn => h ⟨hj, fun p hp hu => hn ⟨p, hp, hu⟩⟩)
    · exact .inl hj

theorem tracked_step {rt : Runtime} {op : Op} (h : Tracked rt) : Tracked (rt.step op) := by
  cases op with
  | newPromise =>
    intro p hp
    rcases List.mem_append.mp hp with hp | hp
    · exact h p hp
    · rw [List.mem_singleton.mp hp]; nofun
  | fulfillOrReject p isReject alloc =>
    show Tracked (rt.fulfillOrReject p isReject alloc)
    by_cases hs : ∃ s, rt.promises[p]? = some s ∧ s.state = .pending
    · obtain ⟨s, hp, hs⟩ := hs
      rw [fulfillOrReject_pending isReject alloc hp hs, Tracked, promises_enqueueAll]
      exact forall_mem_set h (by cases isReject <;> nofun)
    · rw [fulfillOrReject_other isReject alloc fun s hp hs' => hs ⟨s, hp, hs'⟩]
      exact h
  | performThen p alloc =>
    show Tracked (rt.performThen p alloc)
    cases hp : rt.promises[p]? with
    | none => rw [performThen_none alloc hp]; exact h
    | some s =>
      by_cases hs : s.state = .pending
      · rw [performThen_pending alloc hp hs]
        exact forall_mem_set h fun _ _ => Nat.succ_pos _
      · rw [performThen_settled alloc hp hs]
        exact forall_mem_set h fun hpend _ => absurd hpend hs
  | resolveThenable alloc =>
    show Tracked (rt.enqueueJob ..)
    rw [Tracked, promises_enqueueJob]
    exact h
  | dynamicImport alloc =>
    show Tracked (rt.enqueueJob ..)
    rw [Tracked, promises_enqueueJob]
    exact h

/-- A promise at another index stays. -/
theorem mem_set_of_ne {ps : List Promise} {p : Nat} {s q : Promise} (hq : q ∈ ps)
    (hne : ps[p]? ≠ some q) : q ∈ ps.set p s := by
  obtain ⟨i, hi, rfl⟩ := List.mem_iff_getElem.mp hq
  have hip : i ≠ p := fun h => hne (by rw [← h, List.getElem?_eq_getElem hi])
  exact List.mem_iff_getElem.mpr ⟨i, by simpa using hi, List.getElem_set_ne hip.symm _⟩

theorem jobs_step_ne_nil {rt : Runtime} (op : Op) (h : rt.jobs ≠ []) : (rt.step op).jobs ≠ [] := by
  cases op with
  | newPromise => exact h
  | fulfillOrReject p isReject alloc =>
    show (rt.fulfillOrReject p isReject alloc).jobs ≠ []
    by_cases hs : ∃ s, rt.promises[p]? = some s ∧ s.state = .pending
    · obtain ⟨s, hp, hs⟩ := hs
      rw [fulfillOrReject_pending isReject alloc hp hs]
      exact jobs_enqueueAll_ne_nil _ _ _ h
    · rw [fulfillOrReject_other isReject alloc fun s hp hs' => hs ⟨s, hp, hs'⟩]
      exact h
  | performThen p alloc =>
    show (rt.performThen p alloc).jobs ≠ []
    cases hp : rt.promises[p]? with
    | none => rw [performThen_none alloc hp]; exact h
    | some s =>
      by_cases hs : s.state = .pending
      · rw [performThen_pending alloc hp hs]
        exact h
      · rw [performThen_settled alloc hp hs]
        exact jobs_enqueueJob_ne_nil _ _ h
  | resolveThenable alloc => exact jobs_enqueueJob_ne_nil _ _ h
  | dynamicImport alloc => exact jobs_enqueueJob_ne_nil _ _ h

/-- Handling a promise that is not pending enqueues a job. -/
theorem jobs_performThen_settled {rt : Runtime} {p : Nat} {s : Promise} {alloc : Nat → Bool}
    (hp : rt.promises[p]? = some s) (hs : s.state ≠ .pending) (ha : ∀ i, alloc i = true) :
    (rt.performThen p alloc).jobs ≠ [] := by
  rw [performThen_settled alloc hp hs]
  exact jobs_enqueueJob_of_alloc rt _ (ha 0)

/-- What is left behind stays: no operation runs a job, and handling a
rejection takes one. -/
theorem unsettled_step {rt : Runtime} {op : Op} (h : Unsettled rt) (ha : Allocates op) :
    Unsettled (rt.step op) := by
  rcases h with h | ⟨q, hq, hu⟩
  · exact .inl (jobs_step_ne_nil op h)
  have hne {s : Promise} {p : Nat} (hp : rt.promises[p]? = some s) (hs : s.state = .pending) :
      rt.promises[p]? ≠ some q := by
    rw [hp]
    rintro ⟨⟩
    exact nomatch hs.symm.trans hu.1
  cases op with
  | newPromise => exact .inr ⟨q, List.mem_append_left _ hq, hu⟩
  | fulfillOrReject p isReject alloc =>
    show Unsettled (rt.fulfillOrReject p isReject alloc)
    by_cases hs : ∃ s, rt.promises[p]? = some s ∧ s.state = .pending
    · obtain ⟨s, hp, hs⟩ := hs
      rw [fulfillOrReject_pending isReject alloc hp hs]
      refine .inr ⟨q, ?_, hu⟩
      rw [promises_enqueueAll]
      exact mem_set_of_ne hq (hne hp hs)
    · rw [fulfillOrReject_other isReject alloc fun s hp hs' => hs ⟨s, hp, hs'⟩]
      exact .inr ⟨q, hq, hu⟩
  | performThen p alloc =>
    show Unsettled (rt.performThen p alloc)
    cases hp : rt.promises[p]? with
    | none => rw [performThen_none alloc hp]; exact .inr ⟨q, hq, hu⟩
    | some s =>
      by_cases hs : s.state = .pending
      · rw [performThen_pending alloc hp hs]
        exact .inr ⟨q, mem_set_of_ne hq (hne hp hs), hu⟩
      · exact .inl (jobs_performThen_settled hp hs ha)
  | resolveThenable alloc => exact .inr ⟨q, by rw [Runtime.step, promises_enqueueJob]; exact hq, hu⟩
  | dynamicImport alloc => exact .inr ⟨q, by rw [Runtime.step, promises_enqueueJob]; exact hq, hu⟩

theorem unsettled_run {rt : Runtime} {ops : List Op} (h : Unsettled rt)
    (ha : ∀ op ∈ ops, Allocates op) : Unsettled (rt.run ops) := by
  induction ops generalizing rt with
  | nil => exact h
  | cons op ops ih =>
    exact ih (unsettled_step h (ha op List.mem_cons_self)) fun op' h' =>
      ha op' (List.mem_cons_of_mem op h')

/-- The reactions of a settled promise become jobs. -/
theorem jobs_enqueueAll {rt : Runtime} (job : Job) {alloc : Nat → Bool} (ha : ∀ i, alloc i = true)
    {n : Nat} (hn : n ≠ 0) : (enqueueAll rt job alloc (List.range n)).jobs ≠ [] := by
  obtain ⟨n, rfl⟩ := Nat.exists_eq_succ_of_ne_zero hn
  rw [List.range_succ_eq_map]
  show (enqueueAll (rt.enqueueJob job (alloc 0)) job alloc _).jobs ≠ []
  exact jobs_enqueueAll_ne_nil job alloc _ (jobs_enqueueJob_of_alloc rt job (ha 0))

/-- An operation that is not quiet leaves something behind. -/
theorem unsettled_of_not_quiet {rt : Runtime} {op : Op} (ht : Tracked rt) (hq : ¬Quiet rt op)
    (ha : Allocates op) : Unsettled (rt.step op) := by
  cases op with
  | newPromise => exact absurd trivial hq
  | fulfillOrReject p isReject alloc =>
    show Unsettled (rt.fulfillOrReject p isReject alloc)
    simp only [Quiet, not_forall] at hq
    obtain ⟨s, hp, hs, hq⟩ := hq
    rw [fulfillOrReject_pending isReject alloc hp hs]
    by_cases h0 : s.reactions = 0
    · -- with no reaction there is no handler, so a rejection is unhandled
      have hreject : isReject = true := by
        cases isReject with
        | true => rfl
        | false => exact absurd ⟨rfl, h0⟩ hq
      have hhandled : s.isHandled = false := by
        cases hh : s.isHandled with
        | false => rfl
        | true =>
          have := ht s (List.mem_of_getElem? hp) hs hh
          omega
      obtain ⟨hi, -⟩ := List.getElem?_eq_some_iff.mp hp
      refine .inr ⟨{ s with state := .rejected, reactions := 0 }, ?_, rfl, hhandled⟩
      rw [promises_enqueueAll, hreject]
      exact List.mem_set hi _
    · exact .inl (jobs_enqueueAll _ ha h0)
  | performThen p alloc =>
    simp only [Quiet, not_forall] at hq
    obtain ⟨s, hp, hs⟩ := hq
    exact .inl (jobs_performThen_settled hp hs ha)
  | resolveThenable alloc => exact .inl (jobs_enqueueJob_of_alloc rt _ (ha 0))
  | dynamicImport alloc => exact .inl (jobs_enqueueJob_of_alloc rt _ (ha 0))

/-- A run that ends settled was quiet all along. -/
theorem allQuiet_of_settled {rt : Runtime} {ops : List Op} (ht : Tracked rt)
    (ha : ∀ op ∈ ops, Allocates op) (hs : Settled (rt.run ops)) : AllQuiet rt ops := by
  induction ops generalizing rt with
  | nil => trivial
  | cons op ops ih =>
    have ha' : ∀ op' ∈ ops, Allocates op' := fun op' h => ha op' (List.mem_cons_of_mem op h)
    refine ⟨Classical.byContradiction fun hq => ?_, ih (tracked_step ht) ha' hs⟩
    have hu := unsettled_of_not_quiet ht hq (ha op List.mem_cons_self)
    exact unsettled_iff.mp (unsettled_run hu ha') hs

/-! ## The runs of `main` -/

/-- The runtime is what the operations performed so far made of it. -/
def Logged (s : Vm) : Prop := s.runtime = Runtime.init.run s.ops

/-- `x` changes the runtime through operations of the engine only. -/
def KeepsLog {α : Type} (x : M α) : Prop :=
  Keeps Logged x

variable (env : Env)

theorem keepsLog_ask (req : Request) : KeepsLog (ask env req) := by
  intro s hs
  have hlog : Logged (asked env s req) := by
    unfold Logged at hs ⊢
    rw [asked, hs, Runtime.run, Runtime.run, Runtime.run, List.foldl_append]
  exact wp_ask (fun _ _ => hlog) (fun _ => hlog) (fun _ _ => hlog) fun _ => hlog

theorem keepsLog_load (req : CkbModule.LoadReq) (cap : Nat) : KeepsLog (load env req cap) :=
  fun _ hs => wp_load (fun _ => hs) fun _ => hs

theorem keepsLog_store (addr : Nat) (bs : List Byte) : KeepsLog (store addr bs) := fun _ hs => hs

theorem keepsLog_ckbGetFile (name : CString) : KeepsLog (ckbGetFile env name) := fun _ hs => hs

theorem keepsLog_evalBuf (buf : Nat) (bufLen : Int) (filename : String) (module : Bool) :
    KeepsLog (evalBuf env buf bufLen filename module) :=
  keeps_evalBuf (keepsLog_ask env) (fun _ _ h => h) buf bufLen filename module

theorem keepsLog_loadCellCode (bufSize index : Nat) : KeepsLog (loadCellCode env bufSize index) :=
  (keepsLog_load env _ _).bind fun _ => Keeps.ite (.of_pure _)
    ((keepsLog_store _ _).bind fun _ => .of_pure _)

theorem keepsLog_runFromFileSystemBuf (buf bufSize : Nat) :
    KeepsLog (runFromFileSystemBuf env buf bufSize) := by
  have hfile (file : CellFs.FSFile) :
      KeepsLog (if file.size = 0 then pure (-1)
        else evalBuf env file.content (Int.bmod file.size (2 ^ 32)) "main.js" true) :=
    Keeps.ite (.of_pure _) (keepsLog_evalBuf env _ _ _ _)
  refine Keeps.bind (fun _ hs => hs) fun _ => Keeps.ite (.of_pure _) ?_
  refine (keepsLog_ckbGetFile env _).bind fun r => ?_
  -- `main.js` or, where it is missing, `main.bc`
  refine Keeps.ite ((keepsLog_ckbGetFile env _).bind fun r => ?_) ((Keeps.of_pure r).bind fun r => ?_)
  all_goals
    refine Keeps.ite (.of_pure _) ?_
    cases r.2 with
    | none => exact .of_pure _
    | some file => exact hfile file

theorem keepsLog_runFromCellData (enableFs : Bool) : KeepsLog (runFromCellData env enableFs) := by
  refine (keeps_loadCellCodeInfo (keepsLog_load env)).bind fun _ => Keeps.ite (.of_pure _) ?_
  refine Keeps.ite (.of_throw _) ?_
  refine (keepsLog_loadCellCode env _ _).bind fun _ => Keeps.ite (.of_pure _) ?_
  refine Keeps.ite (keepsLog_runFromFileSystemBuf env _ _) ?_
  exact (keepsLog_store _ _).bind fun _ => keepsLog_evalBuf env _ _ _ _

theorem keepsLog_readLocalFile : KeepsLog (readLocalFile env) :=
  (keepsLog_store _ _).bind fun _ => .of_pure _

theorem keepsLog_runFromLocalFile (enableFs : Bool) : KeepsLog (runFromLocalFile env enableFs) := by
  refine (keepsLog_readLocalFile env).bind fun _ => Keeps.ite (.of_pure _) ?_
  refine Keeps.ite (keepsLog_runFromFileSystemBuf env _ _) ?_
  exact (keepsLog_store _ _).bind fun _ => keepsLog_evalBuf env _ _ _ _

theorem keepsLog_compileFromFile : KeepsLog (compileFromFile env) := by
  refine (keepsLog_readLocalFile env).bind fun _ => Keeps.ite (.of_pure _) ?_
  refine (keeps_jsEval (keepsLog_ask env) (fun _ _ h => h) _ _ _ _ _).bind fun _ => Keeps.ite ?_ ?_
  · exact (keeps_dumpError (keepsLog_ask env)).bind fun _ => .of_pure _
  · exact (keepsLog_ask env _).bind fun _ => Keeps.ite (.of_pure _) (.of_pure _)

/-- The runtime that `main` leaves is the result of the operations the engine
performed: nothing else touches jobs or promises. -/
theorem keepsLog_main (argv : List CString) : KeepsLog (main env argv) := by
  refine Keeps.ite (.of_pure _) (Keeps.ite (.of_pure _) (Keeps.ite (.of_pure _) ?_))
  split
  · exact (keepsLog_store _ _).bind fun _ => keepsLog_evalBuf env _ _ _ _
  · exact keepsLog_runFromCellData env _
  · exact keepsLog_runFromCellData env _
  · exact keepsLog_runFromLocalFile env _
  · exact keepsLog_runFromLocalFile env _
  · exact keepsLog_compileFromFile env
  · exact .of_pure _

theorem logged_run (argv : List CString) : Logged (run env argv).2 := by
  have h := keepsLog_main env argv (Vm.init env) rfl
  unfold WP at h
  unfold run
  split at h <;> (rename_i he; rw [he]; exact h)

/-! ## No failure hides in pending work -/

/-- A run whose operations are all quiet leaves nothing behind, whatever it
returns; and where job entries can be allocated, the runs that leave nothing
behind are exactly those. -/
theorem settled_iff_allQuiet (argv : List CString) :
    (AllQuiet Runtime.init (run env argv).2.ops → Settled (run env argv).2.runtime) ∧
    ((∀ op ∈ (run env argv).2.ops, Allocates op) →
      Settled (run env argv).2.runtime → AllQuiet Runtime.init (run env argv).2.ops) := by
  have hlog : (run env argv).2.runtime = Runtime.init.run (run env argv).2.ops :=
    logged_run env argv
  rw [hlog]
  have hcalm : Calm Runtime.init := ⟨rfl, nofun⟩
  have htracked : Tracked Runtime.init := nofun
  exact ⟨fun hq => (calm_run hcalm hq).settled, fun ha hs => allQuiet_of_settled htracked ha hs⟩

/-- A run whose operations are all quiet leaves nothing behind where it returns
0; and where job entries can be allocated, a run that returns 0 leaves nothing
behind exactly where its operations are all quiet. -/
theorem main_settled_iff (argv : List CString) :
    (AllQuiet Runtime.init (run env argv).2.ops →
      (run env argv).1 = .returned 0 → Settled (run env argv).2.runtime) ∧
    ((∀ op ∈ (run env argv).2.ops, Allocates op) →
      (((run env argv).1 = .returned 0 → Settled (run env argv).2.runtime) ↔
        ((run env argv).1 = .returned 0 → AllQuiet Runtime.init (run env argv).2.ops))) := by
  obtain ⟨hsettled, hquiet⟩ := @settled_iff_allQuiet env argv
  refine ⟨fun hq _ => hsettled hq, fun ha => ?_⟩
  exact ⟨fun hs h0 => hquiet ha (hs h0), fun hq h0 => hsettled (hq h0)⟩

/-- `Promise.reject()` -/
def rejectCode : CString :=
  ⟨[80, 114, 111, 109, 105, 115, 101, 46, 114, 101, 106, 101, 99, 116, 40, 41], by decide⟩

/-- The run that evaluates `Promise.reject()` from the command line. -/
def rejectRun : Outcome × Vm :=
  run (world [.newPromise, .fulfillOrReject 0 true fun _ => true]) [optE, rejectCode]

/-- It returns 0, and leaves the promise rejected without a handler. -/
theorem rejectRun_hides_failure : rejectRun.1 = .returned 0 ∧ ¬Settled rejectRun.2.runtime := by
  have hret : rejectRun.1 = .returned 0 := by decide
  have hrt : rejectRun.2.runtime.promises = [⟨.rejected, false, 0⟩] := by decide
  refine ⟨hret, fun hs => hs.noUnhandled ⟨.rejected, false, 0⟩ ?_ ⟨rfl, rfl⟩⟩
  rw [hrt]
  exact List.mem_singleton_self _

end CkbJs.Proof.Qjs
