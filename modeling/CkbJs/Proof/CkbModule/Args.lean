import CkbJs.Proof.CkbModule.Steps
import CkbJs.Proof.JSValue

/-!
# Reading the arguments of a call

`Computes x r P`: the program `x` reads and converts arguments and changes
nothing but the log; it ends with the value of `r`, no conversion having
failed, or, where `r` is `none`, stops in a way `P` allows. `Computes` is
closed under sequencing (`Computes.bind`), which gives `parse_args`
(`computes_parseArgs`) and the heads of `exec_cell` and `spawn_cell`. An
exported constant survives `parse_args` exactly below 2³² (`parseArgs_iff`).
-/

namespace CkbJs.Proof.CkbModule

open CkbJs.Impl CkbJs.Impl.CkbModule CkbJs.Spec.CkbModule

/-- A read or a conversion of an argument. -/
def IsRead (e : Event) : Prop := (∃ i, e = .arg i) ∨ ∃ ok, e = .conv ok

/-- Between the two states only arguments were read; if `ok`, no conversion
failed. -/
def Reads (s s' : Vm) (ok : Bool) : Prop :=
  ∃ ev, s' = { s with events := s.events ++ ev } ∧ (∀ e ∈ ev, IsRead e) ∧
    (ok = true → ev.any failed = false)

theorem Reads.refl (s : Vm) : Reads s s true := ⟨[], by simp, by simp, fun _ => rfl⟩

theorem Reads.trans {s₁ s₂ s₃ : Vm} {ok₁ ok₂ : Bool} (h₁ : Reads s₁ s₂ ok₁) (h₂ : Reads s₂ s₃ ok₂) :
    Reads s₁ s₃ (ok₁ && ok₂) := by
  obtain ⟨ev₁, rfl, hr₁, hf₁⟩ := h₁
  obtain ⟨ev₂, rfl, hr₂, hf₂⟩ := h₂
  refine ⟨ev₁ ++ ev₂, by simp, fun e he => ?_, fun h => ?_⟩
  · rcases List.mem_append.mp he with h | h
    · exact hr₁ e h
    · exact hr₂ e h
  · obtain ⟨h₁, h₂⟩ := Bool.and_eq_true_iff.mp h
    rw [List.any_append, hf₁ h₁, hf₂ h₂]
    rfl

theorem Reads.weaken {s s' : Vm} {ok : Bool} (h : Reads s s' ok) : Reads s s' false :=
  h.imp fun _ h => ⟨h.1, h.2.1, nofun⟩

theorem Reads.clock {s s' : Vm} {ok : Bool} (h : Reads s s' ok) : s'.clock = s.clock := by
  obtain ⟨ev, rfl, -⟩ := h; rfl

theorem Reads.live {s s' : Vm} {ok : Bool} (h : Reads s s' ok) : live s' = live s := by
  obtain ⟨ev, rfl, -⟩ := h; rfl

theorem Reads.null {s s' : Vm} {ok : Bool} (h : Reads s s' ok) : s'.null = s.null := by
  obtain ⟨ev, rfl, -⟩ := h; rfl

theorem Reads.failed {s s' : Vm} (h : Reads s s' true) :
    s'.events.any failed = s.events.any failed := by
  obtain ⟨ev, rfl, -, hf⟩ := h
  rw [List.any_append, hf rfl, Bool.or_false]

/-- `x` reads arguments and computes `r`, stopping as `P` says where there is
no value. -/
def Computes {α : Type} (x : M α) (r : Option α) (P : Stop → Prop) : Prop :=
  ∀ s, WP x s (fun y s' => r = some y ∧ Reads s s' true)
    (fun e s' => r = none ∧ P e ∧ Reads s s' false)

namespace Computes

variable {α β : Type} {P : Stop → Prop}

theorem bind {x : M α} {r : Option α} {f : α → M β} {g : α → Option β} (hx : Computes x r P)
    (hf : ∀ y, Computes (f y) (g y) P) : Computes (x >>= f) (r.bind g) P := by
  intro s
  refine WP.seq (hx s) ?_ ?_
  · rintro e s' ⟨rfl, hP, hR⟩
    exact ⟨rfl, hP, hR⟩
  · rintro y s' ⟨rfl, hR⟩
    exact (hf y s').mono (fun z s'' h => ⟨h.1, hR.trans h.2⟩)
      (fun e s'' h => ⟨h.1, h.2.1, hR.trans h.2.2⟩)

theorem of_pure (y : α) : Computes (pure y) (some y) P := fun s => ⟨rfl, Reads.refl s⟩

/-- What a program that has a value does. -/
theorem wp {x : M α} {r : Option α} {s : Vm} (h : Computes x r P) {y : α} (hr : r = some y) :
    WP x s (fun z s' => z = y ∧ Reads s s' true) (fun _ _ => False) := by
  subst hr
  exact (h s).mono (fun z s' hz => ⟨(Option.some.inj hz.1).symm, hz.2⟩) fun e s' he => nomatch he.1

end Computes

theorem reads_arg (s : Vm) (i : Nat) : Reads s { s with events := s.events ++ [.arg i] } true := by
  refine ⟨[.arg i], rfl, ?_, fun _ => rfl⟩
  rintro e (_ | ⟨_, ⟨⟩⟩)
  exact .inl ⟨i, rfl⟩

theorem computes_get (a : Args) (i : Nat) (P : Stop → Prop) :
    Computes (a.get i) (some (a.slot i)) P :=
  fun s => ⟨rfl, reads_arg s i⟩

theorem reads_conv (s : Vm) (ok : Bool) :
    Reads s { s with events := s.events ++ [.conv ok] } ok := by
  refine ⟨[.conv ok], rfl, ?_, fun h => by simp [Spec.CkbModule.failed, h]⟩
  rintro e (_ | ⟨_, ⟨⟩⟩)
  exact .inr ⟨ok, rfl⟩

theorem computes_convert {α : Type} (r : Option α) {stop : Stop} {P : Stop → Prop} (h : P stop) :
    Computes (convert r stop) r P := by
  intro s
  refine WP.bind ?_
  cases r with
  | some x => exact ⟨rfl, reads_conv s true⟩
  | none => exact ⟨rfl, h, reads_conv s false⟩

/-- A conversion of the value in a slot, and what follows it. -/
theorem computes_slot {α β : Type} {a : Args} {i : Nat} {f : JSValue → Option α} {stop : Stop}
    {P : Stop → Prop} {k : α → M β} {g : α → Option β} (h : P stop)
    (hk : ∀ y, Computes (k y) (g y) P) :
    Computes (a.get i >>= fun v => convert (f v) stop >>= k) ((f (a.slot i)).bind g) P :=
  (computes_get a i P).bind fun v => (computes_convert (f v) h).bind hk

/-- An optional argument, and what follows it. -/
theorem computes_optional {E : Engine} {β : Type} {a : Args} {i : Nat} {stop : Stop}
    {P : Stop → Prop} {k : Int → M β} {g : Int → Option β} {c : Prop} [Decidable c] (h : P stop)
    (hk : ∀ y, Computes (k y) (g y) P) :
    Computes (if c then a.get i >>= fun v => convert (toInt64Free E v) stop >>= k
        else pure (-1) >>= k)
      ((optInt64 E c (a.slot i)).bind g) P := by
  unfold optInt64
  split
  · exact computes_slot h hk
  · exact (Computes.of_pure (-1)).bind hk

/-- A check after a logged conversion that has succeeded if the check passes. -/
theorem computes_check {α : Type} {c ok : Bool} {code : Int} {P : Stop → Prop} {k : M α}
    {r : Option α} (h : P (.check code)) (hc : c = true → ok = true) (hk : c = true → Computes k r P)
    (hr : c = false → r = none) :
    Computes (log (.conv ok) >>= fun _ => check2 c code >>= fun _ => k) r P := by
  intro s
  refine WP.bind ?_
  cases c with
  | true =>
    obtain rfl := hc rfl
    have hs := reads_conv s true
    exact (hk rfl _).mono (fun z s'' h => ⟨h.1, hs.trans h.2⟩)
      (fun e s'' h => ⟨h.1, h.2.1, hs.trans h.2.2⟩)
  | false =>
    obtain ⟨ev, hs, hR, -⟩ := reads_conv s ok
    exact ⟨hr rfl, h, ev, hs, hR, nofun⟩

variable (env : Env)

/-! ## `parse_args` -/

theorem computes_parseArgs (hasField : Bool) (a : Args) (func : LoadFunc) :
    Computes (parseArgs env hasField a func) (loadData env.engine hasField a func)
      (· = .exception) := by
  unfold parseArgs loadData varArg
  refine computes_slot rfl fun index => computes_slot rfl fun source => ?_
  refine computes_optional rfl fun field => computes_optional rfl fun length => ?_
  exact computes_optional rfl fun offset => Computes.of_pure _

theorem loadData_eq_some {E : Engine} {hasField : Bool} {a : Args} {func : LoadFunc} {d : LoadData} :
    loadData E hasField a func = some d ↔ ∃ index source field length offset,
      toInt64Free E (a.slot 0) = some index ∧ toInt64Free E (a.slot 1) = some source ∧
      optInt64 E (hasField ∧ a.argc > 2) (a.slot 2) = some field ∧
      optInt64 E (a.argc > varArg hasField) (a.slot (varArg hasField)) = some length ∧
      optInt64 E (a.argc > varArg hasField + 1) (a.slot (varArg hasField + 1)) = some offset ∧
      { func := func, length := size length, offset := size offset, index := size index
        source := size source, field := size field } = d := by
  simp only [loadData, Option.bind_eq_bind, Option.bind_eq_some_iff, Option.some.injEq]
  constructor
  · rintro ⟨index, h1, source, h2, field, h3, length, h4, offset, h5, h6⟩
    exact ⟨index, source, field, length, offset, h1, h2, h3, h4, h5, h6⟩
  · rintro ⟨index, source, field, length, offset, h1, h2, h3, h4, h5, h6⟩
    exact ⟨index, h1, source, h2, field, h3, length, h4, offset, h5, h6⟩

/-- What a load has for an argument it reads. -/
theorem of_loadData {E : Engine} {hasField : Bool} {a : Args} {func : LoadFunc} {d : LoadData}
    (h : loadData E hasField a func = some d) {p : Position} (hp : p.Read hasField a) :
    ∃ x, toInt64Free E (a.slot (p.slot hasField)) = some x ∧ p.of d = size x := by
  obtain ⟨_, _, _, _, _, h1, h2, h3, h4, h5, rfl⟩ := loadData_eq_some.mp h
  cases p with
  | index => exact ⟨_, h1, rfl⟩
  | source => exact ⟨_, h2, rfl⟩
  | field => exact ⟨_, (if_pos hp).symm.trans h3, rfl⟩
  | length => exact ⟨_, (if_pos hp).symm.trans h4, rfl⟩
  | offset => exact ⟨_, (if_pos hp).symm.trans h5, rfl⟩

theorem exists_optInt64 {E : Engine} {c : Prop} [Decidable c] {v : JSValue}
    (h : c → (toInt64Free E v).isSome) : ∃ x, optInt64 E c v = some x := by
  unfold optInt64
  split
  · exact Option.isSome_iff_exists.mp (h ‹_›)
  · exact ⟨_, rfl⟩

/-- The arguments of a load denote its data if and only if all convert. -/
theorem exists_loadData_iff {E : Engine} {hasField : Bool} {a : Args} {func : LoadFunc} :
    (∃ d, loadData E hasField a func = some d) ↔ Converts E hasField a := by
  constructor
  · rintro ⟨d, hd⟩ p hp
    obtain ⟨x, hx, -⟩ := of_loadData hd hp
    exact Option.isSome_iff_exists.mpr ⟨x, hx⟩
  · intro h
    obtain ⟨index, h1⟩ := Option.isSome_iff_exists.mp (h .index trivial)
    obtain ⟨source, h2⟩ := Option.isSome_iff_exists.mp (h .source trivial)
    obtain ⟨field, h3⟩ := exists_optInt64 (c := hasField ∧ a.argc > 2) (h .field)
    obtain ⟨length, h4⟩ := exists_optInt64 (c := a.argc > varArg hasField) (h .length)
    obtain ⟨offset, h5⟩ := exists_optInt64 (c := a.argc > varArg hasField + 1) (h .offset)
    exact ⟨_, loadData_eq_some.mpr ⟨index, source, field, length, offset, h1, h2, h3, h4, h5, rfl⟩⟩

theorem size_natCast {n : Nat} (h : n < 2 ^ 64) : size n = n := by
  unfold size; omega

theorem size_eq_noValue {x : Int} (h : -2 ^ 63 ≤ x ∧ x < 2 ^ 63) : size x = NO_VALUE ↔ x = -1 := by
  unfold size NO_VALUE; omega

/-- The length of a load is the sentinel exactly where the arguments ask for
the item to its end. -/
theorem readsToEnd_iff {E : Engine} {hasField : Bool} {func : LoadFunc} {a : Args} :
    ReadsToEnd E hasField a ↔ ∃ d, loadData E hasField a func = some d ∧ d.length = NO_VALUE := by
  have hlen {d : LoadData} (hd : loadData E hasField a func = some d) : d.length = NO_VALUE ↔
      (a.argc ≤ varArg hasField ∨ toInt64Free E (a.slot (varArg hasField)) = some (-1)) := by
    by_cases hc : a.argc > varArg hasField
    · obtain ⟨x, hx, hsize⟩ := of_loadData hd (p := .length) hc
      have hsize : d.length = size x := hsize
      have hx' : toInt64Free E (a.slot (varArg hasField)) = some x := hx
      rw [hsize, size_eq_noValue (toInt64Free_range hx), hx', Option.some.injEq]
      omega
    · obtain ⟨_, _, _, length, _, -, -, -, h4, -, rfl⟩ := loadData_eq_some.mp hd
      rw [optInt64, if_neg hc] at h4
      obtain rfl := Option.some.inj h4
      exact iff_of_true (show size (-1) = NO_VALUE by decide) (.inl (by omega))
  constructor
  · rintro ⟨hc, hl⟩
    obtain ⟨d, hd⟩ := exists_loadData_iff.mpr hc
    exact ⟨d, hd, (hlen hd).mpr hl⟩
  · rintro ⟨d, hd, hl⟩
    exact ⟨exists_loadData_iff.mp ⟨d, hd⟩, (hlen hd).mp hl⟩

/-! ## Exported constants as arguments -/

/-- A constant below 2³² is exported as a Number, which converts back. -/
theorem toInt64Free_exportConst {E : Engine} {v : Nat} (h : v < 2 ^ 32) :
    toInt64Free E (exportConst v) = some (v : Int) := by
  rw [exportConst, if_pos h]
  exact toInt64Free_of_isNumber (isNumber_newInt64 (by omega)) (by omega)

/-- A constant from 2³² on is exported as a BigInt, which does not. -/
theorem toInt64Free_exportConst_big {E : Engine} {v : Nat} (h : 2 ^ 32 ≤ v) :
    toInt64Free E (exportConst v) = none := by
  rw [exportConst, if_neg (by omega), newBigUint64, toInt64Free_bigInt]

/-- `parse_args` gives the data its arguments denote. -/
theorem run_parseArgs_iff {env : Env} {hasField : Bool} {a : Args} {func : LoadFunc} {s : Vm} {d : LoadData} :
    (∃ s', (parseArgs env hasField a func).run s = .ok d s') ↔
      loadData env.engine hasField a func = some d := by
  have h := computes_parseArgs env hasField a func s
  unfold WP at h
  split at h
  · rename_i d' s' he
    rw [he, h.1]
    exact ⟨fun ⟨_, h⟩ => by cases h; rfl, fun h => by cases h; exact ⟨_, rfl⟩⟩
  · rename_i e s' he
    rw [he, h.1]
    exact ⟨nofun, nofun⟩

/-- A 64-bit value, in the form in which constants are exported, passed as
one argument of a load whose other arguments convert: `parse_args` succeeds
and stores it if and only if it is below 2³². -/
theorem parseArgs_iff (env : Env) (hasField : Bool) (func : LoadFunc) (a : Args) (s : Vm)
    (p : Position) (v : Nat) (hv : v < 2 ^ 64) (hp : p.Read hasField a)
    (hslot : a.slot (p.slot hasField) = exportConst v)
    (hothers : ∀ q : Position, q ≠ p → q.Read hasField a →
      (toInt64Free env.engine (a.slot (q.slot hasField))).isSome) :
    (∃ d s', (parseArgs env hasField a func).run s = .ok d s' ∧ p.of d = v) ↔ v < 2 ^ 32 := by
  constructor
  · rintro ⟨d, s', hrun, -⟩
    obtain ⟨x, hx, -⟩ := of_loadData (run_parseArgs_iff.mp ⟨s', hrun⟩) hp
    rw [hslot] at hx
    refine Nat.lt_of_not_le fun hbig => ?_
    rw [toInt64Free_exportConst_big hbig] at hx
    nomatch hx
  · intro hlt
    have hconv : Converts env.engine hasField a := by
      intro q hq
      by_cases hqp : q = p
      · rw [hqp, hslot, toInt64Free_exportConst hlt]; rfl
      · exact hothers q hqp hq
    obtain ⟨d, hd⟩ : ∃ d, loadData env.engine hasField a func = some d :=
      exists_loadData_iff.mpr hconv
    obtain ⟨x, hx, hof⟩ := of_loadData hd hp
    rw [hslot, toInt64Free_exportConst hlt] at hx
    obtain rfl := Option.some.inj hx
    obtain ⟨s', hrun⟩ := run_parseArgs_iff.mpr hd
    exact ⟨d, s', hrun, by rw [hof, size_natCast (by omega)]⟩

/-- `SOURCE_INPUT` reaches a load. -/
theorem parseArgs_sourceInput :
    ∃ d s', (parseArgs world false (loadCellArgs [0, 1]) .cell).run Vm.init = .ok d s' ∧
      Position.source.of d = 1 := by
  refine (parseArgs_iff world false .cell (loadCellArgs [0, 1]) Vm.init .source 1 (by decide)
    trivial (by decide) fun q hq hr => ?_).mpr (by decide)
  cases q with
  | index => rfl
  | source => exact absurd rfl hq
  | field => exact nomatch hr.1
  | length => exact absurd hr (show ¬2 > 2 by decide)
  | offset => exact absurd hr (show ¬2 > 3 by decide)

/-- `SOURCE_GROUP_INPUT` does not: `parse_args` throws. -/
theorem parseArgs_sourceGroupInput :
    ¬∃ d s', (parseArgs world false
        (callFrame 3 [.int 0, exportConst 0x0100000000000001] fun _ => .undefined) .cell).run
          Vm.init = .ok d s' ∧ Position.source.of d = 0x0100000000000001 := by
  rintro ⟨d, s', h, -⟩
  nomatch h

/-! ## The heads of `exec_cell` and `spawn_cell` -/

/-- A `CHECK` failed. -/
def IsCheck (e : Stop) : Prop := ∃ err, e = .check err

/-- The contents of a typed array argument that satisfies `cond`. -/
def bufferArg (a : Args) (cond : Option (List Byte) → Bool) (code : Int) : M (List Byte) :=
  a.get 0 >>= fun v =>
    let buffer := getTypedArrayBuffer env.engine v
    log (.conv (buffer ≠ .exception)) >>= fun _ =>
      check2 (buffer ≠ .exception) SyscallErrorArgument >>= fun _ =>
        let p := getArrayBuffer env.engine buffer
        log (.conv p.isSome) >>= fun _ => check2 (cond p) code >>= fun _ => pure (p.getD [])

theorem computes_bufferArg (a : Args) (cond : Option (List Byte) → Bool) (code : Int)
    (hc : cond none = false) :
    Computes (bufferArg env a cond code)
      (let buffer := getTypedArrayBuffer env.engine (a.slot 0)
        if buffer = .exception then none
        else (getArrayBuffer env.engine buffer).filter fun p => cond (some p)) IsCheck := by
  refine (computes_get a 0 IsCheck).bind
    (g := fun v => let buffer := getTypedArrayBuffer env.engine v
      if buffer = .exception then none
      else (getArrayBuffer env.engine buffer).filter fun p => cond (some p)) fun v => ?_
  generalize getTypedArrayBuffer env.engine v = buffer
  refine computes_check ⟨_, rfl⟩ id (fun hb => ?_) fun hb => if_pos (by simpa using hb)
  dsimp only
  rw [if_neg (of_decide_eq_true hb)]
  cases getArrayBuffer env.engine buffer with
  | none => exact computes_check ⟨_, rfl⟩ (by simp [hc]) (by simp [hc]) fun _ => rfl
  | some p =>
    refine computes_check ⟨_, rfl⟩ (fun _ => rfl) (fun h => ?_) fun h => ?_
    · rw [Option.filter_some, if_pos h]
      exact Computes.of_pure p
    · rw [Option.filter_some, if_neg (by simp [h])]

theorem computes_codeHashArg (a : Args) :
    Computes (codeHashArg env a) (codeHash env.engine (a.slot 0)) IsCheck := by
  have h := computes_bufferArg env a (fun p => (p.getD []).length = 32 ∧ p.isSome) (-1) (by decide)
  have hcond : (fun p : List Byte => decide (((some p).getD []).length = 32 ∧ (some p).isSome)) =
      fun p => decide (p.length = 32) := by funext p; simp
  rw [hcond] at h
  exact h

theorem computes_getProperty (obj : JSValue) (prop : String) (value : Int) :
    Computes (getProperty env obj prop value) (property env.engine obj prop value) IsCheck := by
  unfold getProperty property
  generalize env.engine.getPropertyStr obj prop = val
  refine computes_check ⟨_, rfl⟩ id (fun hx => ?_) fun hx => if_pos (by simpa using hx)
  dsimp only
  rw [if_neg (of_decide_eq_true hx)]
  by_cases hu : val = .undefined
  · rw [if_neg (not_not_intro hu), if_pos hu]
    exact Computes.of_pure value
  · rw [if_pos hu, if_neg hu]
    exact computes_convert _ ⟨_, rfl⟩

/-- The conversions `exec_cell` starts with. -/
def execArgs (a : Args) : M (List Byte × Nat × Nat × Nat) := do
  let codeHash ← codeHashArg env a
  let hashType ← convert (toUint32 env.engine (← a.get 1)) (.check (-1))
  let offset ← convert (toUint32 env.engine (← a.get 2)) (.check (-1))
  let length ← convert (toUint32 env.engine (← a.get 3)) (.check (-1))
  pure (codeHash, hashType, offset, length)

theorem computes_execArgs (a : Args) :
    Computes (execArgs env a) (execHead env.engine a) IsCheck := by
  refine (computes_codeHashArg env a).bind fun codeHash => ?_
  refine computes_slot ⟨_, rfl⟩ fun hashType => computes_slot ⟨_, rfl⟩ fun offset => ?_
  exact computes_slot ⟨_, rfl⟩ fun length => Computes.of_pure _

/-- The conversions `spawn_cell` starts with. -/
def spawnArgs (a : Args) : M (List Byte × Nat × Int × Int × Int × Int) := do
  let codeHash ← codeHashArg env a
  let hashType ← convert (toUint32 env.engine (← a.get 1)) (.check (-1))
  let contentLength ← getProperty env (← a.get 2) "content_length" 0
  let memoryLimit ← getProperty env (← a.get 2) "memory_limit" 8
  let offset ← getProperty env (← a.get 2) "offset" 0
  let length ← getProperty env (← a.get 2) "length" 0
  pure (codeHash, hashType, contentLength, memoryLimit, offset, length)

theorem computes_slot_property {β : Type} {a : Args} {prop : String} {value : Int} {k : Int → M β}
    {g : Int → Option β} (hk : ∀ y, Computes (k y) (g y) IsCheck) :
    Computes (a.get 2 >>= fun v => getProperty env v prop value >>= k)
      ((property env.engine (a.slot 2) prop value).bind g) IsCheck :=
  (computes_get a 2 IsCheck).bind
    (g := fun v => (property env.engine v prop value).bind g)
    fun v => (computes_getProperty env v prop value).bind hk

theorem computes_spawnArgs (a : Args) :
    Computes (spawnArgs env a) (spawnHead env.engine a) IsCheck := by
  refine (computes_codeHashArg env a).bind fun codeHash => ?_
  refine computes_slot ⟨_, rfl⟩ fun hashType => ?_
  refine computes_slot_property env fun contentLength => computes_slot_property env fun memory => ?_
  refine computes_slot_property env fun offset => computes_slot_property env fun length => ?_
  exact Computes.of_pure _

/-! ## The trailing arguments -/

/-- The C string of a slot: a missing one is a failure in the log. -/
theorem wp_cString {β : Type} {a : Args} {i : Nat} {s : Vm} {k : Option (List Byte) → M β}
    {Q : β → Vm → Prop} {R : Stop → Vm → Prop}
    (h : ∀ s', Reads s s' false → (s'.events.any failed = true ↔
        s.events.any failed = true ∨ toCString env.engine (a.slot i) = none) →
      WP (k ((toCString env.engine (a.slot i)).map cText)) s' Q R) :
    WP (a.get i >>= fun v => cString env v >>= k) s Q R := by
  refine WP.bind (WP.bind (wp_log (WP.of_pure (WP.bind (WP.bind (wp_log (WP.of_pure ?_)))))))
  refine h _ ((reads_arg s i).trans (reads_conv _ _)).weaken ?_
  cases toCString env.engine (a.slot i) <;> simp [failed]

/-- An argument from `k` on, before `passed_argv` overflows, has no C string. -/
def FailsFrom (E : Engine) (a : Args) (argvOffset k : Nat) : Prop :=
  ∃ i, k ≤ i ∧ i < a.argc ∧ i ≤ argvOffset + 256 ∧ toCString E (a.slot i) = none

/-- The loop from slot `k` on: it ends with the C strings, or overflows where
there are more than 256 arguments; a failure is in the log if one was there
or a conversion failed. -/
theorem wp_passArgv {a : Args} {argvOffset k n : Nat} {s : Vm} (hn : a.argc - k = n)
    (h0 : argvOffset ≤ k) (hk : k ≤ argvOffset + 256) :
    WP (passArgv env a argvOffset (List.range' k n)) s
      (fun l s' => a.argc ≤ argvOffset + 256 ∧ Reads s s' false ∧
        l = (List.range' k n).map (fun i => (toCString env.engine (a.slot i)).map cText) ∧
        (s'.events.any failed = true ↔
          s.events.any failed = true ∨ FailsFrom env.engine a argvOffset k))
      (fun e s' => argvOffset + 256 < a.argc ∧ e = .overflow ∧ Reads s s' false ∧
        (s'.events.any failed = true ↔
          s.events.any failed = true ∨ FailsFrom env.engine a argvOffset k)) := by
  induction n generalizing k s with
  | zero =>
    refine WP.of_pure ⟨by omega, (Reads.refl s).weaken, rfl, ?_⟩
    rw [or_iff_left]
    rintro ⟨i, hi⟩
    omega
  | succ n ih =>
    rw [List.range'_succ]
    refine wp_cString env fun s₁ hreads hfail => ?_
    have hfrom : FailsFrom env.engine a argvOffset k ↔
        toCString env.engine (a.slot k) = none ∨ FailsFrom env.engine a argvOffset (k + 1) := by
      constructor
      · rintro ⟨i, hi, hlt, hle, hf⟩
        rcases Nat.eq_or_lt_of_le hi with rfl | hi
        · exact .inl hf
        · exact .inr ⟨i, hi, hlt, hle, hf⟩
      · rintro (hf | ⟨i, hi, hrest⟩)
        · exact ⟨k, Nat.le_refl k, by omega, hk, hf⟩
        · exact ⟨i, by omega, hrest⟩
    by_cases hin : k - argvOffset < 256
    · have hnext {P : Prop} (h : P ↔ s₁.events.any failed = true ∨
          FailsFrom env.engine a argvOffset (k + 1)) :
          P ↔ s.events.any failed = true ∨ FailsFrom env.engine a argvOffset k := by
        rw [h, hfail, hfrom, or_assoc]
      rw [decide_eq_true hin]
      refine WP.bind (WP.of_pure ?_)
      refine WP.seq (ih (by omega) (by omega) (by omega)) ?_ ?_
      · rintro e s₂ ⟨hlt, he, hr, hf⟩
        exact ⟨hlt, he, hreads.trans hr, hnext hf⟩
      · rintro l s₂ ⟨hle, hc, rfl, hf⟩
        exact WP.of_pure ⟨hle, hreads.trans hc, rfl, hnext hf⟩
    · have hlast : ¬FailsFrom env.engine a argvOffset (k + 1) := by
        rintro ⟨i, hi⟩
        omega
      rw [decide_eq_false hin]
      refine ⟨by omega, rfl, hreads, ?_⟩
      rw [hfail, hfrom, or_iff_left hlast]

end CkbJs.Proof.CkbModule
