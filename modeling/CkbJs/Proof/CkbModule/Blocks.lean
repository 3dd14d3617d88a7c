import CkbJs.Proof.CkbModule.Errors

/-!
# Blocks that are owned or released

A load or a `spawn_cell` that fails after its allocation leaves its block behind; every other
call of them leaves the blocks that were live before and those of the array buffers it returns
(`releases_iff`), and so does a run of such calls (`runReleases_of_meets`).
-/

namespace CkbJs.Proof.CkbModule

open CkbJs.Impl CkbJs.Impl.CkbModule CkbJs.Spec.CkbModule

variable {env : Env} {s : Vm} {a : Args}

theorem released_returned {before : List Nat} {v : JSResult} :
    Released before (.returned v) s ↔ live s = owned v ++ before := by
  constructor
  · rintro ⟨v', hv, hl⟩
    cases hv
    exact hl
  · exact fun hl => ⟨v, rfl, hl⟩

/-- A call that raises releases its blocks where there are none. -/
theorem released_exception {before : List Nat} :
    Released before (.returned .exception) s ↔ live s = before :=
  released_returned

/-- A block that is left behind is not released. -/
theorem not_released_exception {before : List Nat} {b : Nat} (h : live s = b :: before) :
    ¬Released before (.returned .exception) s := by
  rw [released_exception, h]
  exact fun h => absurd (congrArg List.length h) (by simp)

/-! ## Loads -/

theorem released_of_leaves {data : LoadData} {s' : Vm} (h : Leaves env data s s') :
    Released (live s) (.returned .exception) s' ↔ ¬LoadLeaks env s.clock data := by
  rcases h with ⟨hL, hs⟩ | ⟨hL, hs⟩
  · exact iff_of_false (not_released_exception hs) (not_not_intro hL)
  · exact iff_of_true (released_exception.mpr hs) hL

theorem loadFails_of_leaks {t : Nat} {d : LoadData} (h : LoadLeaks env t d) : LoadFails env t d := by
  unfold LoadLeaks at h
  unfold LoadFails
  split at h
  · exact h.elim
  · rw [if_neg ‹_›]
    split at h
    · rw [if_pos ‹_›]
      exact .inr (.inr h.2.2)
    · rw [if_neg ‹_›]
      exact .inr h.2

/-- A load releases its block where it does not fail after its allocation. -/
theorem wp_syscallLoad_releases {data : LoadData} :
    WP (syscallLoad env data) s
      (fun v s' => Released (live s) (.returned v) s' ↔ ¬LoadLeaks env s.clock data)
      (fun e s' => Released (live s) e.outcome s' ↔ ¬LoadLeaks env s.clock data) := by
  refine wp_syscallLoad (fun _ s' hs => ⟨released_of_leaves hs, fun err => released_of_leaves hs⟩) ?_
  exact fun hn v s' hs => iff_of_true (released_returned.mpr hs.live) fun hL => hn (loadFails_of_leaks hL)

theorem releases_loader {b : Binding} {hasField : Bool} {func : LoadFunc}
    (hb : loader b = some (hasField, func)) : Releases env b a s ↔
      ∀ d, loadData env.engine hasField a func = some d → ¬LoadLeaks env s.clock d := by
  refine call_of_wp (fun o s' => Released (live s) o s' ↔ _) ?_
  rw [func_of_loader hb]
  refine wp_loadWith (fun d hd s' hr => ?_) fun hn s' hr => ?_
  · rw [hd]
    have hall : (∀ d', some d = some d' → ¬LoadLeaks env s.clock d') ↔ ¬LoadLeaks env s.clock d := by
      simp
    have hlive : live s = live s' := hr.live.symm
    have hclock : s.clock = s'.clock := hr.clock.symm
    rw [hall, hlive, hclock]
    exact wp_syscallLoad_releases
  · refine iff_of_true (released_exception.mpr hr.live) ?_
    rw [hn]
    exact nofun

theorem releases_hashLoader {b : Binding} {func : LoadFunc} (hb : hashLoader b = some func) :
    Releases env b a s ↔ ¬LoadLeaks env s.clock (hashData func) := by
  refine call_of_wp (fun o s' => Released (live s) o s' ↔ _) ?_
  rw [func_of_hashLoader hb]
  exact wp_syscallLoad_releases (s := { s with events := [] })

/-! ## `spawn_cell` -/

/-- `spawn_cell` after its head. -/
theorem wp_spawnTail_releases {h : List Byte × Nat × Int × Int × Int × Int} {C : Prop}
    (hC : C ↔ a.argc ≤ 259 ∧ (env.malloc s.clock (size h.2.2.1) = true →
      (env.kernel.spawn (s.clock + 1) (spawnReq env.engine a h)).ret = 0 ∧
      env.newObject (s.clock + 2) = true ∧ env.newArrayBuffer (s.clock + 3) = true ∧
      (env.kernel.spawn (s.clock + 1) (spawnReq env.engine a h)).contentLength < 2 ^ 31)) :
    WP (spawnTail env a h) s (fun v s' => Released (live s) (.returned v) s' ↔ C)
      (fun e s' => Released (live s) e.outcome s' ↔ C) := by
  refine WP.seq (wp_passArgv env rfl (Nat.le_refl 3) (by decide)) ?_ ?_
  · rintro e s' ⟨hlt, rfl, -⟩
    refine iff_of_false (fun h => ?_) fun hc => ?_
    · obtain ⟨v, hv, -⟩ := h
      cases hv
    · have := (hC.mp hc).1
      omega
  · rintro argv s₁ ⟨hle, hreads, rfl, -⟩
    rw [← hreads.clock] at hC
    rw [← hreads.live]
    refine WP.bind (wp_malloc (fun hm => ?_) fun hm => ?_)
    · have hC : C ↔ (env.kernel.spawn (s₁.clock + 1) (spawnReq env.engine a h)).ret = 0 ∧
          env.newObject (s₁.clock + 2) = true ∧ env.newArrayBuffer (s₁.clock + 3) = true ∧
          (env.kernel.spawn (s₁.clock + 1) (spawnReq env.engine a h)).contentLength < 2 ^ 31 := by
        rw [hC, and_iff_right hle, forall_prop_of_true hm]
      refine WP.bind (wp_check2 (fun _ => WP.bind (wp_tick (wp_runSpawn ?_ ?_))) fun h => Bool.noConfusion h)
      · -- the spawn or its object fails
        intro hor err s' hs
        refine iff_of_false (not_released_exception hs.live) fun hc => ?_
        obtain ⟨hret, hobj, -⟩ := hC.mp hc
        exact hor.elim (fun hne => hne hret) fun hf => Bool.noConfusion (hf.symm.trans hobj)
      · rintro hret hobj content2 s' hs (⟨hbuf, hlen, rfl⟩ | ⟨hfail, rfl⟩)
        · refine iff_of_true (released_returned.mpr hs.live) (hC.mpr ⟨hret, hobj, hbuf, hlen⟩)
        · -- the object has no content
          refine iff_of_false (fun hr => ?_) fun hc => ?_
          · rw [released_returned, hs.live] at hr
            exact absurd (congrArg List.length hr) (by simp [owned, live, allocated])
          · obtain ⟨-, -, hbuf, hlen⟩ := hC.mp hc
            exact hfail.elim (fun hf => Bool.noConfusion (hf.symm.trans hbuf)) (Nat.not_le.mpr hlen)
    · refine WP.bind (wp_check2 (fun h => Bool.noConfusion h) fun _ => ?_)
      refine iff_of_true (released_exception.mpr rfl) (hC.mpr ⟨hle, fun h => ?_⟩)
      exact Bool.noConfusion (h.symm.trans hm)

theorem releases_spawnCell : Releases env .spawnCell a s ↔
    ∀ h, spawnHead env.engine a = some h → a.argc ≤ 259 ∧
      (env.malloc s.clock (size h.2.2.1) = true →
        (env.kernel.spawn (s.clock + 1) (spawnReq env.engine a h)).ret = 0 ∧
        env.newObject (s.clock + 2) = true ∧ env.newArrayBuffer (s.clock + 3) = true ∧
        (env.kernel.spawn (s.clock + 1) (spawnReq env.engine a h)).contentLength < 2 ^ 31) := by
  refine call_of_computes (fun o s' => Released (live s) o s' ↔ _) (syscallSpawnCell_eq a)
    (computes_spawnArgs env a) ?_ ?_
  · intro hnone s' hr
    refine iff_of_true (released_exception.mpr hr.live) ?_
    rw [hnone]
    exact nofun
  · intro h hhead s' hr
    have hlive : live s = live s' := hr.live.symm
    have hclock : s.clock = s'.clock := hr.clock.symm
    rw [hhead, hlive, hclock]
    refine wp_spawnTail_releases ?_
    exact ⟨fun hall => hall h rfl, fun hC h' he => Option.some.inj he ▸ hC⟩

theorem hashLoader_of_loader {b : Binding} {x : Bool × LoadFunc} (h : loader b = some x) :
    hashLoader b = none := by
  cases b <;> first | rfl | cases h

/-- A call releases what it does not return exactly where it does not fail after its allocation. -/
theorem releases_call_iff {b : Binding} (hb : Allocates b) :
    Releases env b a s ↔ ReleasesWhen env a s b := by
  rcases hb with hb | hb | rfl
  · obtain ⟨⟨hasField, func⟩, hl⟩ := Option.isSome_iff_exists.mp hb
    rw [releases_loader hl]
    constructor
    · intro h
      refine ⟨fun hasField' func' d hl' hd => ?_, fun func' hl' => ?_, fun hspawn => ?_⟩
      · cases Option.some.inj (hl.symm.trans hl')
        exact h d hd
      · exact nomatch hl'.symm.trans (hashLoader_of_loader hl)
      · rw [hspawn] at hl
        cases hl
    · exact fun h d hd => h.1 hasField func d hl hd
  · obtain ⟨func, hl⟩ := Option.isSome_iff_exists.mp hb
    rw [releases_hashLoader hl]
    constructor
    · intro h
      refine ⟨fun hasField' func' d hl' hd => ?_, fun func' hl' => ?_, fun hspawn => ?_⟩
      · exact nomatch hl.symm.trans (hashLoader_of_loader hl')
      · cases Option.some.inj (hl.symm.trans hl')
        exact h
      · rw [hspawn] at hl
        cases hl
    · exact fun h => h.2.1 func hl
  · rw [releases_spawnCell]
    exact ⟨fun h => ⟨nofun, nofun, fun _ => h⟩, fun h => h.2.2 rfl⟩

/-! ## Runs -/

theorem runReleases_of_meets {calls : List (Binding × Args)}
    (h : Meets env (fun b a s => Allocates b ∧ ReleasesWhen env a s b) calls s) :
    RunReleases env calls s := by
  induction calls generalizing s with
  | nil => exact ⟨[], rfl, rfl⟩
  | cons c calls ih =>
    obtain ⟨⟨hb, hw⟩, hrest⟩ := h
    obtain ⟨v, hv, hlive⟩ : Releases env c.1 c.2 s := (releases_call_iff hb).mpr hw
    obtain ⟨vs, hvs, hlives⟩ := ih hrest
    refine ⟨v :: vs, ?_, ?_⟩
    · rw [runAll, hv, hvs, List.map_cons]
    · show live (runAll env calls (run env c.1 c.2 s).2).2 = _
      rw [hlives, hlive, List.reverse_cons, List.flatMap_append, List.flatMap_singleton,
        List.append_assoc]

theorem meets_take {P : Binding → Args → Vm → Prop} {calls : List (Binding × Args)}
    (h : Meets env P calls s) (n : Nat) : Meets env P (calls.take n) s := by
  induction calls generalizing s n with
  | nil => rw [List.take_nil]; exact h
  | cons c calls ih =>
    cases n with
    | zero => exact trivial
    | succ n => exact ⟨h.1, ih h.2 n⟩

/-- A run whose calls all raise leaves the blocks as they were. -/
theorem live_of_exceptions {calls : List (Binding × Args)} (h : RunReleases env calls s)
    (hexc : ∀ o ∈ (runAll env calls s).1, o = .returned .exception) :
    live (runAll env calls s).2 = live s := by
  obtain ⟨vs, hvs, hlive⟩ := h
  have hnone : vs.reverse.flatMap owned = [] := by
    rw [List.flatMap_eq_nil_iff]
    intro v hv
    have := hexc (.returned v) (by rw [hvs]; exact List.mem_map_of_mem (List.mem_reverse.mp hv))
    rw [Outcome.returned.inj this]
    rfl
  rw [hlive, hnone, List.nil_append]

/-- A load or a `spawn_cell` releases the blocks it does not return exactly where it does not fail
after its allocation; and in a run of such calls the blocks that are live are at every moment
those live before and those owned by values, so that calls that raise change nothing. -/
theorem releases_iff (env : Env) :
    (∀ b a s, Allocates b → (Releases env b a s ↔ ReleasesWhen env a s b)) ∧
    ∀ calls s, Meets env (fun b a s => Allocates b ∧ ReleasesWhen env a s b) calls s → ∀ n,
      RunReleases env (calls.take n) s ∧
      ((∀ o ∈ (runAll env (calls.take n) s).1, o = .returned .exception) →
        live (runAll env (calls.take n) s).2 = live s) := by
  refine ⟨fun b a s hb => releases_call_iff hb, fun calls s h n => ?_⟩
  have hrun := runReleases_of_meets (meets_take h n)
  exact ⟨hrun, live_of_exceptions hrun⟩

/-- A world whose kernel finds nothing. -/
def emptyWorld : Env := { world with kernel := { world.kernel with loadRet := fun _ _ => 1 } }

/-- A load of eight bytes returns its block; one that asks for the length first and does not find
the item fails before it allocates. -/
theorem releases_loadCell :
    (Releases world .loadCell (loadCellArgs [0, 1, 8]) Vm.init ∧
      live (run world .loadCell (loadCellArgs [0, 1, 8]) Vm.init).2 = [0]) ∧
    Releases emptyWorld .loadCell (loadCellArgs [5, 1]) Vm.init := by
  refine ⟨⟨?_, by decide⟩, ?_⟩
  · refine ((releases_iff world).1 .loadCell (loadCellArgs [0, 1, 8]) Vm.init (.inl rfl)).mpr ?_
    refine ⟨?_, nofun, nofun⟩
    rintro hasField func d hl hd hleak
    cases hl
    cases hd
    exact absurd hleak.2 (by rintro (h | h | h) <;> revert h <;> decide)
  · refine ((releases_iff emptyWorld).1 .loadCell (loadCellArgs [5, 1]) Vm.init (.inl rfl)).mpr ?_
    refine ⟨?_, nofun, nofun⟩
    rintro hasField func d hl hd hleak
    cases hl
    cases hd
    exact absurd hleak.1 (by decide)

/-- A load of eight bytes of a cell that is not there keeps the block it allocated. -/
theorem not_releases : ¬Releases emptyWorld .loadCell (loadCellArgs [5, 1, 8]) Vm.init := by
  rintro ⟨v, hv, hlive⟩
  cases hv
  exact absurd hlive (by decide)

end CkbJs.Proof.CkbModule
