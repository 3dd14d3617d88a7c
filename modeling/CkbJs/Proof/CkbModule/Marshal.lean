import CkbJs.Proof.CkbModule.Errors
import Mathlib.Data.List.TakeWhile

/-!
# The arguments of another cell

`exec_cell` and `spawn_cell` pass their trailing arguments on where there are arguments up to the
first of them, at most 256, and all convert to strings without a NUL (`marshals_iff`).
-/

namespace CkbJs.Proof.CkbModule

open CkbJs.Impl CkbJs.Impl.CkbModule CkbJs.Spec.CkbModule

variable {env : Env} {s : Vm} {a : Args}

/-- A text is a C string exactly where it has no NUL. -/
theorem cText_eq_self_iff {str : List Byte} : cText str = str ↔ 0 ∉ str := by
  rw [cText, List.takeWhile_eq_self_iff]
  constructor
  · exact fun h h0 => absurd (h 0 h0) (by decide)
  · exact fun h c hc => decide_eq_true fun h0 => h (h0 ▸ hc)

theorem getElem?_trailing {E : Engine} {k i : Nat} (h : i < a.argc - k) :
    (trailing E a k)[i]? = some ((toCString E (a.slot (k + i))).map cText) := by
  rw [trailing, List.getElem?_map, List.getElem?_range' h, Nat.one_mul, Option.map_some]

/-- The request that the code makes passes the arguments exactly where they can be passed. -/
theorem passes_iff {E : Engine} {k : Nat} (req : ExecReq) (hargc : req.argc = (a.argc : Int) - k)
    (hargv : req.argv = trailing E a k) : Passes E a k req ↔ Passable E a k := by
  have hstring {i : Nat} (hi : i < a.argc - k) {str : List Byte}
      (hstr : toCString E (a.slot (k + i)) = some str) : req.argv[i]? = some (some str) ↔ 0 ∉ str := by
    rw [hargv, getElem?_trailing hi, hstr, Option.map_some, Option.some_inj, Option.some_inj]
    exact cText_eq_self_iff
  constructor
  · intro h
    have hargc' := h.argc
    rw [hargc] at hargc'
    refine ⟨by omega, fun i hk hi => ?_⟩
    obtain ⟨j, rfl⟩ := Nat.exists_eq_add_of_le hk
    obtain ⟨str, hstr, hget⟩ := h.argv j (by omega)
    exact ⟨str, hstr, (hstring (by omega) hstr).mp hget⟩
  · rintro ⟨hk, hall⟩
    refine ⟨by rw [hargc]; omega, fun i hi => ?_⟩
    obtain ⟨str, hstr, h0⟩ := hall (k + i) (Nat.le_add_right k i) (by omega)
    exact ⟨str, hstr, (hstring hi hstr).mpr h0⟩

/-- Reading arguments issues no request. -/
theorem Reads.requests {s s' : Vm} {ok : Bool} (h : Reads s s' ok) :
    s'.events.filterMap requestOf = s.events.filterMap requestOf := by
  obtain ⟨ev, rfl, hr, -⟩ := h
  have hev : ev.filterMap requestOf = [] := by
    rw [List.filterMap_eq_nil_iff]
    intro e he
    rcases hr e he with ⟨i, rfl⟩ | ⟨ok, rfl⟩
    · rfl
    · rfl
  rw [List.filterMap_append, hev, List.append_nil]

/-- How a call goes on whose head asks for `req`: it overflows `passed_argv`, or lacks the memory
it needs, or issues the request. -/
inductive GoesOn (a : Args) (k : Nat) (req : ExecReq) (lacks : Prop) (o : Outcome) (s : Vm) : Prop
  | overflows (hlt : k + 256 < a.argc) (ho : o = .undefined) (hi : issued (o, s) = [])
  | starves (hle : a.argc ≤ k + 256) (hl : lacks) (ho : o = .returned .exception)
      (hi : issued (o, s) = [])
  | issues (hle : a.argc ≤ k + 256) (hl : ¬lacks) (ho : o ≠ .undefined) (hi : issued (o, s) = [req])

theorem GoesOn.undefined_iff {k : Nat} {req : ExecReq} {lacks : Prop} {o : Outcome}
    (h : GoesOn a k req lacks o s) : o = .undefined ↔ k + 256 < a.argc := by
  cases h with
  | overflows hlt ho _ => exact iff_of_true ho hlt
  | starves hle _ ho _ => exact iff_of_false (by rw [ho]; exact nofun) (Nat.not_lt.mpr hle)
  | issues hle _ ho _ => exact iff_of_false ho (Nat.not_lt.mpr hle)

/-! ## `exec_cell` -/

theorem wp_execTail_goesOn {h : List Byte × Nat × Nat × Nat} (hs : s.events.filterMap requestOf = []) :
    WP (execTail env a h) s
      (fun v s' => GoesOn a 4 (execReq env.engine a h) False (.returned v) s')
      (fun e s' => GoesOn a 4 (execReq env.engine a h) False e.outcome s') := by
  refine WP.seq (wp_passArgv env rfl (Nat.le_refl 4) (by decide)) ?_ ?_
  · rintro e s' ⟨hlt, rfl, hr, -⟩
    exact .overflows hlt rfl (hr.requests.trans hs)
  · rintro argv s₁ ⟨hle, hreads, rfl, -⟩
    have hs₁ : s₁.events.filterMap requestOf = [] := hreads.requests.trans hs
    refine WP.bind (wp_tick (wp_runExec (fun _ => ?_) fun ret _ => ?_))
    · refine .issues hle not_false nofun ?_
      rw [issued, hs₁]
      rfl
    · refine .issues hle not_false nofun ?_
      rw [issued, List.filterMap_append, hs₁]
      rfl

/-- `exec_cell` raises where its head is not read, and goes on where it is. -/
theorem run_execCell (env : Env) (a : Args) (s : Vm) :
    (execHead env.engine a = none ∧ (run env .execCell a s).1 = .returned .exception ∧
        issued (run env .execCell a s) = []) ∨
      ∃ h, execHead env.engine a = some h ∧
        GoesOn a 4 (execReq env.engine a h) False (run env .execCell a s).1 (run env .execCell a s).2 := by
  refine call_of_computes (fun o s' => (execHead env.engine a = none ∧ o = .returned .exception ∧
    issued (o, s') = []) ∨ ∃ h, execHead env.engine a = some h ∧
      GoesOn a 4 (execReq env.engine a h) False o s') (syscallExecCell_eq a) (computes_execArgs env a) ?_ ?_
  · exact fun hnone s' hr => .inl ⟨hnone, rfl, hr.requests⟩
  · intro h hhead s' hr
    exact (wp_execTail_goesOn hr.requests).mono (fun v s'' hv => .inr ⟨h, hhead, hv⟩)
      fun e s'' he => .inr ⟨h, hhead, he⟩

/-! ## `spawn_cell` -/

theorem wp_spawnTail_goesOn {h : List Byte × Nat × Int × Int × Int × Int}
    (hs : s.events.filterMap requestOf = []) {t : Nat} (ht : s.clock = t) :
    WP (spawnTail env a h) s
      (fun v s' => GoesOn a 3 (spawnReq env.engine a h).toExecReq
        (env.malloc t (size h.2.2.1) = false) (.returned v) s')
      (fun e s' => GoesOn a 3 (spawnReq env.engine a h).toExecReq
        (env.malloc t (size h.2.2.1) = false) e.outcome s') := by
  refine WP.seq (wp_passArgv env rfl (Nat.le_refl 3) (by decide)) ?_ ?_
  · rintro e s' ⟨hlt, rfl, hr, -⟩
    exact .overflows hlt rfl (hr.requests.trans hs)
  · rintro argv s₁ ⟨hle, hreads, rfl, -⟩
    have hs₁ : s₁.events.filterMap requestOf = [] := hreads.requests.trans hs
    rw [← ht, ← hreads.clock]
    refine WP.bind (wp_malloc (fun hm => ?_) fun hm => ?_)
    · have hissues {t : Nat} {o : Outcome} {s' : Vm} (ho : o ≠ .undefined) (hr : replacedBy o = [])
          (hs' : Spawns env (allocated env s₁ (size h.2.2.1)) s' t (spawnReq env.engine a h)) :
          GoesOn a 3 (spawnReq env.engine a h).toExecReq
            (env.malloc s₁.clock (size h.2.2.1) = false) o s' := by
        refine .issues hle (fun hf => nomatch hf.symm.trans hm) ho ?_
        rw [issued, hr, hs'.events, List.filterMap_append]
        show [] ++ (s₁.events.filterMap requestOf ++ _) = _
        rw [hs₁]
        rfl
      refine WP.bind (wp_check2 (fun _ => WP.bind (wp_tick (wp_runSpawn ?_ ?_))) nofun)
      · exact fun _ err s' hs' => hissues nofun rfl ⟨hs'.events, hs'.live⟩
      · exact fun _ _ content2 s' hs' _ => hissues nofun rfl ⟨hs'.events, hs'.live⟩
    · exact WP.bind (wp_check2 nofun fun _ => .starves hle hm rfl hs₁)

/-- `spawn_cell` raises where its head is not read, and goes on where it is. -/
theorem run_spawnCell (env : Env) (a : Args) (s : Vm) :
    (spawnHead env.engine a = none ∧ (run env .spawnCell a s).1 = .returned .exception ∧
        issued (run env .spawnCell a s) = []) ∨
      ∃ h, spawnHead env.engine a = some h ∧
        GoesOn a 3 (spawnReq env.engine a h).toExecReq (env.malloc s.clock (size h.2.2.1) = false)
          (run env .spawnCell a s).1 (run env .spawnCell a s).2 := by
  refine call_of_computes (fun o s' => (spawnHead env.engine a = none ∧ o = .returned .exception ∧
    issued (o, s') = []) ∨ ∃ h, spawnHead env.engine a = some h ∧
      GoesOn a 3 (spawnReq env.engine a h).toExecReq (env.malloc s.clock (size h.2.2.1) = false) o s')
    (syscallSpawnCell_eq a) (computes_spawnArgs env a) ?_ ?_
  · exact fun hnone s' hr => .inl ⟨hnone, rfl, hr.requests⟩
  · intro h hhead s' hr
    exact (wp_spawnTail_goesOn hr.requests hr.clock).mono (fun v s'' hv => .inr ⟨h, hhead, hv⟩)
      fun e s'' he => .inr ⟨h, hhead, he⟩

/-! ## Both -/

/-- `Marshals`, of the end of a call. -/
def Marshaled (env : Env) (k : Nat) (a : Args) (o : Outcome) (s : Vm) : Prop :=
  o ≠ .undefined ∧ (o = .returned .exception ∧ issued (o, s) = [] ∨
    ∃ req, issued (o, s) = [req] ∧ Passes env.engine a k req)

theorem GoesOn.marshaled_iff {k : Nat} {req : ExecReq} {lacks : Prop} {o : Outcome}
    (h : GoesOn a k req lacks o s) (hargc : req.argc = (a.argc : Int) - k)
    (hargv : req.argv = trailing env.engine a k) :
    Marshaled env k a o s ↔ a.argc ≤ k + 256 ∧ (¬lacks → Passable env.engine a k) := by
  cases h with
  | overflows hlt ho hi => exact iff_of_false (fun h => h.1 ho) fun h => absurd h.1 (Nat.not_le.mpr hlt)
  | starves hle hl ho hi =>
    exact iff_of_true ⟨by rw [ho]; exact nofun, .inl ⟨ho, hi⟩⟩ ⟨hle, fun hn => absurd hl hn⟩
  | issues hle hl ho hi =>
    rw [Marshaled, and_iff_right ho, and_iff_right hle, forall_prop_of_true hl, hi,
      or_iff_right fun h => List.cons_ne_nil _ _ h.2, ← passes_iff req hargc hargv]
    constructor
    · rintro ⟨req', heq, hp⟩
      cases heq
      exact hp
    · exact fun hp => ⟨req, rfl, hp⟩

theorem marshals_execCell : Marshals env .execCell 4 a s ↔
    ∀ h, execHead env.engine a = some h → a.argc ≤ 4 + 256 ∧ Passable env.engine a 4 := by
  obtain ⟨hnone, ho, hi⟩ | ⟨h, hhead, hg⟩ := run_execCell env a s
  · refine iff_of_true ⟨by rw [ho]; exact nofun, .inl ⟨ho, hi⟩⟩ ?_
    rw [hnone]
    exact nofun
  · refine (hg.marshaled_iff rfl rfl).trans ?_
    rw [forall_prop_of_true not_false, hhead]
    exact ⟨fun hC h' _ => hC, fun hall => hall h rfl⟩

theorem marshals_spawnCell : Marshals env .spawnCell 3 a s ↔
    ∀ h, spawnHead env.engine a = some h → a.argc ≤ 3 + 256 ∧
      (env.malloc s.clock (size h.2.2.1) = true → Passable env.engine a 3) := by
  obtain ⟨hnone, ho, hi⟩ | ⟨h, hhead, hg⟩ := run_spawnCell env a s
  · refine iff_of_true ⟨by rw [ho]; exact nofun, .inl ⟨ho, hi⟩⟩ ?_
    rw [hnone]
    exact nofun
  · refine (hg.marshaled_iff rfl rfl).trans ?_
    rw [Bool.not_eq_false, hhead]
    exact ⟨fun hC h' heq => Option.some.inj heq ▸ hC, fun hall => hall h rfl⟩

/-- `exec_cell` and `spawn_cell` issue a request with exactly their trailing arguments, or raise
without one, exactly where the arguments can be passed or the call does not come to it. -/
theorem marshals_iff (env : Env) (b : Binding) (k : Nat) (a : Args) (s : Vm) (hb : argvOffset b = some k) :
    Marshals env b k a s ↔ MarshalsWhen env a s b := by
  cases b <;> cases hb
  · rw [marshals_execCell]
    exact ⟨fun h => ⟨fun _ => h, nofun⟩, fun h => h.1 rfl⟩
  · rw [marshals_spawnCell]
    exact ⟨fun h => ⟨nofun, fun _ => h⟩, fun h => h.2 rfl⟩

/-- A world whose strings are their bytes. -/
def textWorld : Env :=
  { world with engine :=
    { world.engine with
      render := fun v => match v with
        | .string str => some str
        | _ => none } }

/-- Two arguments are passed on, `ab` and the empty text. -/
theorem marshals_textWorld : Marshals textWorld .execCell 4
    (callFrame 4 [.object 0, .int 0, .int 0, .int 0, .string [97, 98], .string []] fun _ => .undefined)
    Vm.init := by
  refine (marshals_iff textWorld .execCell 4 _ Vm.init rfl).mpr ⟨fun _ h _ => ⟨by decide, by decide, ?_⟩, nofun⟩
  intro i hk hi
  obtain rfl | rfl : i = 4 ∨ i = 5 := by
    have hi : i < 6 := hi
    omega
  · exact ⟨[97, 98], rfl, by decide⟩
  · exact ⟨[], rfl, by decide⟩

/-- With a code hash only, `exec_cell` passes on -3 arguments. -/
theorem not_marshals : ¬Marshals world .execCell 4 (callFrame 4 [.object 0] fun _ => .undefined) Vm.init := by
  rintro ⟨-, ⟨h, -⟩ | ⟨req, hreq, hp⟩⟩
  · exact absurd h (by decide)
  · have hargc : req.argc = -3 := by
      cases hreq
      rfl
    have := hp.argc
    rw [hargc] at this
    exact absurd this (by decide)

end CkbJs.Proof.CkbModule
