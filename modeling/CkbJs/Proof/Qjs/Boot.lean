import CkbJs.Proof.Qjs.Steps

/-!
# Boot from a cell

A run without options returns 0 exactly when it boots: every check of
`load_cell_code_info` is a check of `Admits` (`wp_loadCellCodeInfo`), what is
evaluated is the data of the dep (`bytes_codeStored`), and `eval_buf` returns
0 exactly when the evaluation ends without an exception (`wp_evalBuf`). In all
other runs `main` returns another value, unless the process ends before it
returns (`main_boots_iff`).
-/

namespace CkbJs.Proof.Qjs

open CkbJs.Impl CkbJs.Impl.Qjs CkbJs.Spec.Qjs

variable {env : Env} {s : Vm}

/-! ## Evaluation -/

/-- What a state has handed to the engine for evaluation. -/
def evaluated (s : Vm) : List (List Byte) := s.requests.filterMap source

/-- A program returns 0 exactly if `ok`, having evaluated `bs`. -/
def Finished (ok : Prop) (bs : List Byte) (ret : Int) (s : Vm) : Prop :=
  (ret = 0 ↔ ok) ∧ evaluated s = [bs]

/-- The process ended in the engine, which is not `ok`. -/
def Ended (env : Env) (ok : Prop) (stop : Stop) (_ : Vm) : Prop :=
  ¬ok ∧ ∃ t req, Ends (env.engine t req).result stop

theorem evaluated_asked (req : Request) :
    evaluated (asked env s req) = evaluated s ++ (source req).toList := by
  unfold evaluated asked
  rw [List.filterMap_append]
  cases req <;> rfl

/-- A request that evaluates nothing new: it succeeds, raises, or ends the process. -/
theorem wp_ask_source {req : Request} {Q : Result → Vm → Prop} {bs : List Byte} {ok : Prop}
    (hs : evaluated s ++ (source req).toList = [bs]) (hok : ok → Succeeds env s.clock req)
    (hv : ∀ m s', (env.engine s.clock req).result = .value m → s'.clock = s.clock + 1 →
      evaluated s' = [bs] → Q (.value m) s')
    (hx : ∀ s', ¬Succeeds env s.clock req → evaluated s' = [bs] → Q .exception s') :
    WP (ask env req) s Q (Ended env ok) := by
  have heval : evaluated (asked env s req) = [bs] := (evaluated_asked req).trans hs
  have hnot {r : Result} (hr : (env.engine s.clock req).result = r) (hne : ∀ m, r ≠ .value m) :
      ¬Succeeds env s.clock req := fun ⟨m, hm⟩ => hne m (hr.symm.trans hm)
  refine wp_ask (fun m h => hv m _ h rfl heval) (fun h => hx _ (hnot h nofun) heval) ?_ ?_
  · exact fun c h => ⟨fun hk => hnot h nofun (hok hk), _, _, by rw [h]; exact .exited c⟩
  · exact fun h => ⟨fun hk => hnot h nofun (hok hk), _, _, by rw [h]; exact .lost⟩

/-- Dumping an exception, and returning -1. -/
theorem wp_dumpError {ok : Prop} {bs : List Byte} (hok : ¬ok) (hs : evaluated s = [bs]) :
    WP (dumpError env >>= fun _ => pure (-1)) s (Finished ok bs) (Ended env ok) := by
  have hs' : evaluated s ++ (source .dumpError).toList = [bs] := by rw [hs]; rfl
  have hfin {s' : Vm} (h : evaluated s' = [bs]) : Finished ok bs (-1) s' :=
    ⟨iff_of_false (by omega) hok, h⟩
  refine WP.bind (WP.bind (wp_ask_source hs' (fun h => absurd h hok) ?_ ?_))
  · exact fun m s' _ _ h => hfin h
  · exact fun s' _ h => hfin h

theorem wp_finish {ok : Prop} {bs : List Byte} {val : Result} (hok : val ≠ .exception ↔ ok)
    (hs : evaluated s = [bs]) : WP (finish env val) s (Finished ok bs) (Ended env ok) := by
  refine WP.ite (fun h => ?_) fun h => ?_
  · exact wp_dumpError (fun hk => hok.mpr hk h) hs
  · exact ⟨iff_of_true rfl (hok.mp h), hs⟩

/-- The last request of `eval_buf`. -/
theorem wp_ask_finish {req : Request} {bs : List Byte}
    (hs : evaluated s ++ (source req).toList = [bs]) :
    WP (ask env req) s
      (fun val s' => WP (finish env val) s' (Finished (Succeeds env s.clock req) bs)
        (Ended env (Succeeds env s.clock req)))
      (Ended env (Succeeds env s.clock req)) := by
  refine wp_ask_source hs id (fun m s' h _ he => ?_) fun s' h he => ?_
  · exact wp_finish (iff_of_true nofun ⟨m, h⟩) he
  · exact wp_finish (iff_of_false (not_not_intro rfl) h) he

/-- `eval_buf` of bytecode: read, resolved if it is a module, run. -/
theorem wp_evalBytecode {bs : List Byte} (hbc : bs.head? = some BC_VERSION) (hs : evaluated s = []) :
    WP (do
      let val ← ask env (.readObject bs)
      if val = .exception then
        dumpError env
        return -1
      if val = .value true then
        let resolved ← ask env .resolveModule
        if resolved = .exception then
          dumpError env
          return -1
      finish env (← ask env .evalFunction)) s
      (Finished (Evaluates env s.clock bs) bs) (Ended env (Evaluates env s.clock bs)) := by
  have hok : Evaluates env s.clock bs ↔ _ := Iff.of_eq (if_pos hbc)
  have hsource : evaluated s ++ (source (.readObject bs)).toList = [bs] := by rw [hs]; rfl
  refine WP.bind (wp_ask_source hsource (fun h => ?_) (fun m s' hm ht he => ?_) fun s' hn he => ?_)
  · rcases hok.mp h with ⟨h, -⟩ | ⟨h, -⟩ <;> exact ⟨_, h⟩
  · refine WP.ite nofun fun _ => WP.ite (fun hmod => ?_) fun hmod => ?_
    · -- a module
      obtain rfl : m = true := Result.value.inj hmod
      have hok : Evaluates env s.clock bs ↔
          Succeeds env (s.clock + 1) .resolveModule ∧ Succeeds env (s.clock + 2) .evalFunction := by
        rw [hok, hm]; simp
      have hs' : evaluated s' ++ (source .resolveModule).toList = [bs] := by rw [he]; rfl
      refine WP.bind (wp_ask_source hs' (fun h => ht ▸ (hok.mp h).1) (fun m s'' hm ht' he => ?_)
        fun s'' hn he => ?_)
      · refine WP.ite nofun fun _ => ?_
        have hok : Evaluates env s.clock bs = Succeeds env s''.clock .evalFunction := by
          rw [hok, ht', ht]
          exact propext (and_iff_right ⟨m, ht ▸ hm⟩)
        rw [hok]
        exact WP.bind (wp_ask_finish (by rw [he]; rfl))
      · exact WP.ite (fun _ => wp_dumpError (fun h => hn (ht ▸ (hok.mp h).1)) he) fun h => absurd rfl h
    · -- not a module
      have hok : Evaluates env s.clock bs = Succeeds env s'.clock .evalFunction := by
        obtain rfl : m = false := by simpa using hmod
        rw [hok, hm, ht]; simp
      rw [hok]
      exact WP.bind (wp_ask_finish (by rw [he]; rfl))
  · refine WP.ite (fun _ => wp_dumpError (fun h => hn ?_) he) fun h => absurd rfl h
    rcases hok.mp h with ⟨h, -⟩ | ⟨h, -⟩ <;> exact ⟨_, h⟩

/-- `eval_buf` returns 0 exactly if evaluating the bytes in the buffer ends
without an exception. -/
theorem wp_evalBuf {buf t : Nat} {bufLen : Int} {bs : List Byte}
    (hbs : s.mem.bytes buf (CkbModule.size bufLen) = bs) (hhead : bs.head? = some (s.mem buf))
    (hs : evaluated s = []) (ht : s.clock = t) :
    WP (evalBuf env buf bufLen "<run_from_file>" false) s
      (Finished (Evaluates env t bs) bs) (Ended env (Evaluates env t bs)) := by
  subst ht
  refine WP.bind (WP.of_get (WP.ite (fun h => ?_) fun h => WP.ite nofun fun _ => ?_))
  · rw [hbs]
    exact wp_evalBytecode (hhead.trans (congrArg some h)) hs
  · have hok : Evaluates env s.clock bs =
        Succeeds env s.clock (.eval bs "<run_from_file>" false false) :=
      if_neg fun he => h (Option.some.inj (hhead.symm.trans he))
    rw [hok]
    refine WP.bind (wp_jsEval ?_)
    rw [hbs]
    exact wp_ask_finish (congrArg (· ++ [bs]) hs)

/-! ## The code cell -/

/-- `load_cell_code_info` passes exactly the scripts that `Admits` describes. -/
theorem wp_loadCellCodeInfo (hs : s.clock = 0) :
    WP (loadCellCodeInfo env) s
      (fun r s' => evaluated s' = evaluated s ∧
        (Admits env ∧ r = (0, (code env).length, (dep env).2) ∧ s'.clock = 2 ∨
          ¬Admits env ∧ r.1 ≠ 0))
      fun _ _ => False := by
  have hfail : (-1 : Int) ≠ 0 := by decide
  refine WP.bind (wp_load (fun hload => ?_) fun hload => ?_)
  · refine WP.ite (fun h => absurd rfl h) fun _ => ?_
    refine WP.ite (fun h => ⟨rfl, .inr ⟨fun ha => ?_, hfail⟩⟩) fun hsize => ?_
    · exact Nat.not_le_of_lt h ha.scriptSize
    have htake : (env.kernel.item .script).take SCRIPT_SIZE = env.kernel.item .script :=
      List.take_of_length_le (Nat.le_of_not_lt hsize)
    simp only [htake]
    refine WP.ite (fun h => ⟨rfl, .inr ⟨fun ha => h ha.scriptVerify, hfail⟩⟩) fun hverify => ?_
    have hshort {n : Nat} (hn : n ≤ 35) (h : (args env).length < n) : ¬Admits env := fun ha => by
      have := ha.argsSize
      omega
    refine WP.ite (fun h => ⟨rfl, .inr ⟨hshort (by decide) h, hfail⟩⟩) fun _ => ?_
    refine WP.ite (fun h => ⟨rfl, .inr ⟨hshort (by decide) h, hfail⟩⟩) fun hargs => ?_
    refine WP.ite (fun h => ⟨rfl, .inr ⟨fun ha => h ha.depFound, h⟩⟩) fun hdep => ?_
    refine WP.bind (wp_load (fun hprobe => ?_) fun hprobe => ?_)
    · refine WP.ite (fun h => absurd rfl h) fun _ => ?_
      refine WP.ite (fun h => ⟨rfl, .inr ⟨fun ha => ?_, hfail⟩⟩) fun hne => ?_
      · exact ha.nonEmpty (List.length_eq_zero_iff.mp h)
      refine ⟨rfl, .inl ⟨⟨hs ▸ hload, Nat.le_of_not_lt hsize, Decidable.not_not.mp hverify, ?_, ?_, ?_, ?_⟩,
        rfl, congrArg (· + 2) hs⟩⟩
      · exact Nat.le_of_not_lt hargs
      · exact Decidable.not_not.mp hdep
      · have hp : env.kernel.loadRet (s.clock + 1) (depData env) = 0 := hprobe
        rwa [hs] at hp
      · exact fun h => hne (List.length_eq_zero_iff.mpr h)
    · refine WP.ite (fun h => ⟨rfl, .inr ⟨fun ha => h ?_, h⟩⟩) fun h => absurd hprobe h
      show env.kernel.loadRet (s.clock + 1) (depData env) = 0
      rw [hs]
      exact ha.probe
  · exact WP.ite (fun h => ⟨rfl, .inr ⟨fun ha => h (hs ▸ ha.loadScript), h⟩⟩) fun h => absurd hload h

/-- `load_cell_code` puts the data of the dep into the stack buffer. -/
theorem wp_loadCellCode (hs : s.clock = 2) :
    WP (loadCellCode env (code env).length (dep env).2) s
      (fun ret s' =>
        ret = 0 ∧ env.kernel.loadRet 2 (depData env) = 0 ∧
            s' = { s with clock := 3, mem := s.mem.write env.stackBuf (code env) } ∨
          ret = -1 ∧ env.kernel.loadRet 2 (depData env) ≠ 0 ∧ s' = { s with clock := 3 })
      fun _ _ => False := by
  have hclock : s.clock + 1 = 3 := congrArg (· + 1) hs
  refine WP.bind (wp_load (fun h => ?_) fun h => ?_)
  · refine WP.ite (fun h => absurd rfl h) fun _ => WP.bind (wp_store (.inl ⟨rfl, hs ▸ h, ?_⟩))
    show { s with clock := s.clock + 1, mem := s.mem.write env.stackBuf ((code env).take _) } = _
    rw [List.take_length, hclock]
  · exact WP.ite (fun _ => .inr ⟨rfl, hs ▸ h, by rw [hclock]⟩) fun h' => absurd h h'

/-- The size of a buffer on the stack survives the conversions of its length. -/
theorem size_bmod {n : Nat} (h : n < 2 ^ 31) : CkbModule.size (Int.bmod n (2 ^ 32)) = n := by
  unfold CkbModule.size
  rw [Int.bmod_eq_of_le (by omega) (by omega), Int.emod_eq_of_lt (by omega) (by omega)]
  exact Int.toNat_natCast n

/-! ## The run -/

/-- What `run_from_cell_data` does without a file system. -/
theorem wp_runFromCellData (hs : s.clock = 0) (he : evaluated s = []) :
    WP (runFromCellData env false) s
      (fun ret s' => (ret = 0 ↔ Admits env ∧ (code env).length + 1 ≤ env.stackRoom ∧
          env.kernel.loadRet 2 (depData env) = 0 ∧ Evaluates env 3 (code env)) ∧
        (ret = 0 → evaluated s' = [code env]))
      fun stop _ => Admits env ∧
        (stop = .stackOverflow ∧ env.stackRoom < (code env).length + 1 ∨
          env.kernel.loadRet 2 (depData env) = 0 ∧ ¬Evaluates env 3 (code env) ∧
            ∃ t req, Ends (env.engine t req).result stop) := by
  refine WP.seq (wp_loadCellCodeInfo hs) (fun _ _ h => h.elim) fun r s₁ ⟨he₁, h⟩ => ?_
  rcases h with ⟨ha, rfl, hc₁⟩ | ⟨ha, hr⟩
  · refine WP.ite (fun h => absurd rfl h) fun _ => WP.ite (fun h => ?_) fun hfits => ?_
    · exact ⟨ha, .inl ⟨rfl, h⟩⟩
    refine WP.seq (wp_loadCellCode hc₁) (fun _ _ h => h.elim) fun ret s₂ h => ?_
    rcases h with ⟨rfl, hload, rfl⟩ | ⟨rfl, hload, rfl⟩
    · refine WP.ite (fun h => absurd rfl h) fun _ => WP.ite nofun fun _ => ?_
      refine WP.bind (wp_store ?_)
      let mem := (s₁.mem.write env.stackBuf (code env)).write (env.stackBuf + (code env).length) [0]
      have hcode : mem.Holds env.stackBuf (code env) := fun i hi =>
        (Mem.write_of_not (.inl (by omega))).trans (Mem.holds_write _ _ _ i hi)
      have hlen : (code env).length < 2 ^ 31 := by
        have := env.stackRoom_lt
        omega
      have hbytes : mem.bytes env.stackBuf (CkbModule.size (Int.bmod (code env).length (2 ^ 32))) =
          code env := by rw [size_bmod hlen]; exact hcode.bytes_eq
      have hhead : (code env).head? = some (mem env.stackBuf) := by
        obtain ⟨b, bs, hb⟩ := List.exists_cons_of_ne_nil ha.nonEmpty
        have := (hb ▸ hcode) 0 (Nat.zero_lt_succ _)
        rw [hb]
        exact congrArg some this.symm
      have heval := @wp_evalBuf env { s₁ with clock := 3, mem := mem } _ 3 _ _ hbytes hhead
        (he₁.trans he) rfl
      refine heval.mono (fun ret s' h => ⟨h.1.trans ?_, fun _ => h.2⟩) fun stop s' h => ?_
      · exact ⟨fun h => ⟨ha, Nat.le_of_not_lt hfits, hload, h⟩, fun h => h.2.2.2⟩
      · exact ⟨ha, .inr ⟨hload, h⟩⟩
    · refine WP.ite (fun _ => ⟨iff_of_false (by decide) fun h => hload h.2.2.1, nofun⟩) fun h => ?_
      exact absurd (show (-1 : Int) ≠ 0 by decide) h
  · exact WP.ite (fun _ => ⟨iff_of_false hr fun h => ha h.1, fun h => absurd h hr⟩) fun h => absurd hr h

theorem parseArgs_noOptions {argv : List CString} (hr : optR ∉ argv) (hf : optF ∉ argv)
    (he : optE ∉ argv) (hc : optC ∉ argv) : parseArgs argv = .runJsWithFile := by
  unfold parseArgs
  simp only [hr, hf, he, hc, if_false]

theorem wp_main (env : Env) {argv : List CString} (hargs : parseArgs argv = .runJsWithFile) :
    WP (main env argv) (Vm.init env)
      (fun ret s' => (ret = 0 ↔ Boots env) ∧ (ret = 0 → evaluated s' = [code env]))
      fun stop _ => Interrupted env stop ∧ ¬Boots env := by
  unfold main
  rw [hargs]
  refine WP.ite nofun fun _ => WP.ite (fun h => ?_) fun hrt => WP.ite (fun h => ?_) fun hctx => ?_
  · exact ⟨iff_of_false (by decide) fun hb => h hb.newRuntime, nofun⟩
  · exact ⟨iff_of_false (by decide) fun hb => h hb.newContext, nofun⟩
  have hrt := Decidable.not_not.mp hrt
  have hctx := Decidable.not_not.mp hctx
  refine (wp_runFromCellData rfl rfl).mono (fun ret s' h => ⟨?_, h.2⟩) fun stop s' ⟨ha, h⟩ => ?_
  · rw [h.1]
    exact ⟨fun ⟨ha, hfits, hload, heval⟩ => ⟨hrt, hctx, ha, hfits, hload, heval⟩,
      fun hb => ⟨hb.admits, hb.fits, hb.loadCode, hb.evaluates⟩⟩
  · rcases h with ⟨rfl, hfits⟩ | ⟨hload, heval, hend⟩
    · exact ⟨⟨hrt, hctx, ha, .inl ⟨rfl, hfits⟩⟩, fun hb => Nat.not_le_of_lt hfits hb.fits⟩
    · exact ⟨⟨hrt, hctx, ha, .inr ⟨hload, hend⟩⟩, fun hb => heval hb.evaluates⟩

/-- A run without options returns 0 exactly if it boots, and then what it has
evaluated is the data of the dep. In every other run `main` returns another
value, unless a stack too small for the code or the script itself ends the
process before. -/
theorem main_boots_iff (env : Env) (argv : List CString) (hr : optR ∉ argv) (hf : optF ∉ argv)
    (he : optE ∉ argv) (hc : optC ∉ argv) :
    ((run env argv).1 = .returned 0 ↔ Boots env) ∧
    (Boots env → (run env argv).2.requests.filterMap source = [code env]) ∧
    (¬Boots env → (∃ ret, ret ≠ 0 ∧ (run env argv).1 = .returned ret) ∨
      ∃ stop, (run env argv).1 = .stopped stop ∧ Interrupted env stop) := by
  have h := wp_main env (parseArgs_noOptions hr hf he hc)
  unfold WP at h
  unfold run
  split at h
  · rename_i ret s' hrun
    rw [hrun]
    refine ⟨?_, fun hb => h.2 (h.1.mpr hb), fun hb => .inl ⟨ret, fun h0 => hb (h.1.mp h0), rfl⟩⟩
    exact ⟨fun h0 => h.1.mp (by injection h0), fun hb => by rw [h.1.mpr hb]⟩
  · rename_i stop s' hrun
    rw [hrun]
    exact ⟨iff_of_false nofun h.2, fun hb => absurd hb h.2, fun _ => .inr ⟨stop, rfl, h.1⟩⟩

theorem boots_world : Boots (world []) where
  newRuntime := rfl
  newContext := rfl
  admits := ⟨rfl, by decide, by decide, by decide, by decide, rfl, by decide⟩
  fits := by decide
  loadCode := rfl
  evaluates := ⟨false, rfl⟩

theorem main_boots_iff_world : (run (world []) []).1 = .returned 0 ∧
    (run (world []) []).2.requests.filterMap source = [[49, 59]] :=
  have h := main_boots_iff (world []) [] nofun nofun nofun nofun
  ⟨h.1.mpr boots_world, h.2.1 boots_world⟩

end CkbJs.Proof.Qjs
