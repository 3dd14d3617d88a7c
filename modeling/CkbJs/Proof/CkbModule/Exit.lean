import CkbJs.Proof.CkbModule.Errors

/-!
# Exit statuses

The status passed to `exit` reaches the parent modulo 256 (`exitSurvives`): it is cast to an
`int8_t` in the child, and an exit code from 0 on is unchanged by the cast in the parent.
-/

namespace CkbJs.Proof.CkbModule

open CkbJs.Impl CkbJs.Impl.CkbModule CkbJs.Spec.CkbModule

variable {env : Env} {s : Vm} {a : Args}

/-- `exit` with an integer ends the script with its low byte. -/
theorem run_exit {status : Int} (h : IsNumber (a.slot 0) status) :
    ∃ code, (run env .exit a s).1 = .exited code ∧ code.bmod (2 ^ 8) = code ∧
      code % 2 ^ 8 = status % 2 ^ 8 := by
  obtain ⟨r, hr, hmod⟩ := toInt32Free_of_isNumber (E := env.engine) h
  refine ⟨r.bmod (2 ^ 8), ?_, Int.bmod_bmod, ?_⟩
  · refine call_of_wp (fun o _ => o = .exited (r.bmod (2 ^ 8))) ?_
    refine WP.bind (WP.bind (wp_log (WP.of_pure (WP.bind ?_))))
    rw [hr]
    exact WP.bind (wp_log (WP.of_pure (WP.of_throw rfl)))
  · have hbmod : r.bmod (2 ^ 8) % 2 ^ 8 = r % 2 ^ 8 := Int.bmod_emod
    rw [hbmod]
    omega

/-- The `exit_code` of a spawned cell is what the kernel told, as an unsigned number. -/
theorem exitCode_of_spawned {v : JSValue} {c : Option (Nat × Nat)}
    (hv : (run env .spawnCell a s).1 = .returned (.spawned v c)) :
    ∃ h, spawnHead env.engine a = some h ∧ v = newUint32
      ((env.kernel.spawn (s.clock + 1) (spawnReq env.engine a h)).exitCode.toInt % 2 ^ 32).toNat := by
  have hb : Binding.func env .spawnCell a = spawnArgs env a >>= spawnTail env a :=
    syscallSpawnCell_eq a
  refine call_of_computes (fun o _ => o = .returned (.spawned v c) → ∃ h, spawnHead env.engine a = some h ∧
    v = newUint32 ((env.kernel.spawn (s.clock + 1) (spawnReq env.engine a h)).exitCode.toInt % 2 ^ 32).toNat)
    hb (computes_spawnArgs env a) (fun _ _ _ => nofun) ?_ hv
  intro h hhead s' hr
  have hclock : s.clock = s'.clock := hr.clock.symm
  rw [hclock]
  refine WP.seq (wp_passArgv env rfl (Nat.le_refl 3) (by decide)) ?_ ?_
  · rintro e s' ⟨-, rfl, -⟩
    exact nofun
  rintro argv s₁ ⟨-, hreads, rfl, -⟩
  rw [← hreads.clock]
  refine WP.bind (wp_malloc (fun _ => ?_) fun _ => WP.bind (wp_check2 nofun fun _ => nofun))
  refine WP.bind (wp_check2 (fun _ => WP.bind (wp_tick (wp_runSpawn ?_ ?_))) nofun)
  · exact fun _ err s' _ => nofun
  · intro _ _ content2 s' _ _ heq
    cases heq
    exact ⟨h, hhead, rfl⟩

/-- An exit code, cast to unsigned 32 bits: 0 for 0, and unchanged from 0 on. -/
theorem cast_exitCode {code : Int} (h : code.bmod (2 ^ 8) = code) :
    ∃ n : Nat, ((BitVec.ofInt 8 code).toInt % 2 ^ 32).toNat = n ∧ n < 2 ^ 32 ∧
      ((n : Int) = 0 ↔ code = 0) ∧ (0 ≤ code → (n : Int) = code) := by
  have hlo : -2 ^ 7 ≤ code := by rw [← h]; exact Int.le_bmod (by decide)
  have hhi : code < 2 ^ 7 := by rw [← h]; exact Int.bmod_lt (by decide)
  refine ⟨_, rfl, ?_⟩
  rw [BitVec.toInt_ofInt, h]
  omega

/-- The status passed to `exit` is 0 modulo 256 exactly where the parent sees 0, and the parent
sees a status from 0 to 127 unchanged. -/
theorem exitSurvives : ExitSurvives UnchangedModulo := by
  intro env a s status hs
  obtain ⟨code, hrun, hbmod, hmod⟩ := run_exit hs
  refine ⟨code, hrun, fun env' a' s' v c hchild hspawn => ?_⟩
  obtain ⟨h, hhead, rfl⟩ := exitCode_of_spawned hspawn
  obtain ⟨n, hn, hlt, hzero, hsame⟩ := cast_exitCode hbmod
  have hcode : code < 2 ^ 7 := by rw [← hbmod]; exact Int.bmod_lt (by decide)
  have hlow : -2 ^ 7 ≤ code := by rw [← hbmod]; exact Int.le_bmod (by decide)
  rw [hchild h hhead, hn]
  refine ⟨n, isNumber_newUint32 hlt, ?_, fun h0 h127 => ?_⟩
  · rw [hzero]
    omega
  · rw [hsame (by omega)]
    omega

/-- A parent whose child ended with the exit code. -/
def spawnWorld (exitCode : BitVec 8) : Env :=
  { world with kernel := { world.kernel with spawn := fun _ _ => ⟨0, exitCode, [], 0⟩ } }

/-- The status 3 reaches the parent, whose `spawn_cell` succeeds. -/
theorem exitSurvives_three : ∃ v c n,
    (run (spawnWorld 3) .spawnCell (callFrame 3 [.object 0, .int 0] fun _ => .undefined) Vm.init).1 =
      .returned (.spawned v c) ∧ IsNumber v n ∧ UnchangedModulo 3 n := by
  obtain ⟨code, hcode, hparent⟩ :=
    exitSurvives world (callFrame 1 [.int 3] fun _ => .undefined) Vm.init 3 (.int rfl)
  have hcode : code = 3 := (Outcome.exited.inj hcode).symm
  obtain ⟨n, hn, hsame⟩ := hparent (spawnWorld 3) (callFrame 3 [.object 0, .int 0] fun _ => .undefined)
    Vm.init (.int 3) (some (0, 0)) (fun _ _ => by rw [hcode]; rfl) rfl
  exact ⟨_, _, n, rfl, hn, hsame⟩

/-- The status 256 reaches the parent as 0. -/
theorem not_exitSurvives : ¬ExitSurvives Unchanged := by
  intro h
  obtain ⟨code, hcode, hparent⟩ := h world (callFrame 1 [.int 256] fun _ => .undefined) Vm.init 256 (.int rfl)
  have hcode : code = 0 := (Outcome.exited.inj hcode).symm
  obtain ⟨n, hn, hzero, -⟩ := hparent (spawnWorld 0) (callFrame 3 [.object 0, .int 0] fun _ => .undefined) Vm.init
    (.int 0) (some (0, 0)) (fun _ _ => by rw [hcode]; rfl) rfl
  cases hn with
  | int hn => exact absurd (hzero.mp hn.symm) (by decide)

end CkbJs.Proof.CkbModule
