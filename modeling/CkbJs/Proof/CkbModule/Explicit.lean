import CkbJs.Proof.CkbModule.Load

/-!
# Explicit lengths and offsets

A load stands for an absent length or offset by `(size_t)-1`, which an explicit -1 converts to
as well. Every other explicit argument reaches the kernel, and an explicit -1 does not
(`honours_iff`).
-/

namespace CkbJs.Proof.CkbModule

open CkbJs.Impl CkbJs.Impl.CkbModule CkbJs.Spec.CkbModule

variable {env : Env} {s : Vm} {hasField : Bool} {func : LoadFunc} {a : Args} {d : LoadData}

/-- What a load has for an explicit argument. -/
theorem of_explicit {p : Position} {x : Int} (hd : loadData env.engine hasField a func = some d)
    (he : Explicit env.engine hasField a p x) : p.of d = size x ∧ (p.of d = NO_VALUE ↔ x = -1) := by
  obtain ⟨y, hy, hof⟩ := of_loadData hd he.1
  obtain rfl : y = x := Option.some.inj (hy.symm.trans he.2)
  exact ⟨hof, by rw [hof]; exact size_eq_noValue (toInt64Free_range hy)⟩

/-- There is no array buffer for an item of `2⁶⁴ - 1` bytes. -/
theorem unread_ne_noValue (hlen : d.length = NO_VALUE) (h : ¬LoadFails env s.clock d) :
    unread env d ≠ NO_VALUE := by
  intro hu
  refine h ?_
  rw [LoadFails, if_neg (by rw [hlen]; decide), if_pos hlen]
  refine .inr (.inr (.inr (.inr ?_)))
  rw [Nat.min_self, hu]
  decide

/-- The data call of a load that does not fail has its explicit arguments, unless one is -1. -/
theorem data_call_iff (hd : loadData env.engine hasField a func = some d) (h : ¬LoadFails env s.clock d)
    {cap offset : Nat} (hcap : cap = if d.length = NO_VALUE then unread env d else d.length)
    (hoffset : offset = (start d).offset) :
    ((∀ l, Explicit env.engine hasField a .length l → cap = size l) ∧
        ∀ o, Explicit env.engine hasField a .offset o → offset = size o) ↔
      ¬Explicit env.engine hasField a .length (-1) ∧ ¬Explicit env.engine hasField a .offset (-1) := by
  rw [offset_start] at hoffset
  constructor
  · rintro ⟨hl, ho⟩
    refine ⟨fun he => ?_, fun he => ?_⟩
    · have hlen : d.length = NO_VALUE := (of_explicit hd he).2.mpr rfl
      rw [hl _ he, if_pos hlen] at hcap
      exact unread_ne_noValue hlen h hcap.symm
    · have hoff : d.offset = NO_VALUE := (of_explicit hd he).2.mpr rfl
      rw [ho _ he, if_pos hoff] at hoffset
      exact absurd hoffset (by decide)
  · rintro ⟨hl, ho⟩
    refine ⟨fun l he => ?_, fun o he => ?_⟩
    · obtain ⟨hof, hiff⟩ := of_explicit hd he
      have hne : d.length ≠ NO_VALUE := fun hn => hl (hiff.mp hn ▸ he)
      rw [hcap, if_neg hne]
      exact hof
    · obtain ⟨hof, hiff⟩ := of_explicit hd he
      have hne : d.offset ≠ NO_VALUE := fun hn => ho (hiff.mp hn ▸ he)
      rw [hoffset, if_neg hne]
      exact hof

/-- A load built on `parse_args` honours its explicit arguments exactly where none of them is
-1, or it fails. -/
theorem honours_iff (env : Env) (b : Binding) (hasField : Bool) (func : LoadFunc) (a : Args) (s : Vm)
    (hb : loader b = some (hasField, func)) :
    Honours env b hasField a s ↔
      (¬Explicit env.engine hasField a .length (-1) ∧ ¬Explicit env.engine hasField a .offset (-1)) ∨
      ∀ d, loadData env.engine hasField a func = some d → LoadFails env s.clock d := by
  have hfails (h : ∀ d, loadData env.engine hasField a func = some d → LoadFails env s.clock d) :
      (run env b a s).1 = .returned .exception := by
    refine call_of_wp (fun o _ => o = .returned .exception) ?_
    rw [func_of_loader hb]
    refine wp_loadWith (fun d hd s' hr => ?_) fun _ s' _ => rfl
    have hd := h d hd
    rw [← hr.clock] at hd
    exact wp_syscallLoad (fun _ _ _ => ⟨rfl, fun _ => rfl⟩) fun hn => absurd hd hn
  by_cases h : ∀ d, loadData env.engine hasField a func = some d → LoadFails env s.clock d
  · exact iff_of_true (.inl (hfails h)) (.inr h)
  rw [or_iff_left h]
  rw [not_forall] at h
  obtain ⟨d, h⟩ := h
  obtain ⟨hd, h⟩ := Classical.not_imp.mp h
  have hcall : (run env b a s).1 ≠ .returned .exception ∧ dataCall (run env b a s).2.events =
      some (if d.length = NO_VALUE then unread env d else d.length, (start d).offset) := by
    refine call_of_wp (fun o s' => o ≠ .returned .exception ∧ dataCall s'.events = _) ?_
    rw [func_of_loader hb]
    refine wp_loadWith (fun d' hd' s' hr => ?_) fun hn => nomatch hd.symm.trans hn
    obtain rfl := Option.some.inj (hd.symm.trans hd')
    rw [← hr.clock] at h
    refine wp_syscallLoad (fun hf => absurd hf h) fun _ v s'' he => ⟨fun hv => ?_, he.call⟩
    exact he.value (Outcome.returned.inj hv)
  rw [← data_call_iff hd h rfl rfl, Honours, or_iff_right hcall.1, hcall.2]
  constructor
  · rintro ⟨cap, offset, heq, hl⟩
    cases heq
    exact hl
  · exact fun hl => ⟨_, _, rfl, hl⟩

/-- The last two bytes of a cell. -/
theorem honours_loadCell : Honours world .loadCell false (loadCellArgs [0, 1, 2, 6]) Vm.init := by
  refine (honours_iff world .loadCell false .cell _ Vm.init rfl).mpr (.inl ⟨?_, ?_⟩)
  · exact fun h => absurd (Option.some.inj h.2) (by decide)
  · exact fun h => absurd (Option.some.inj h.2) (by decide)

/-- With the offset -1, `load_cell` returns the start of a cell. -/
theorem not_honours : ¬Honours world .loadCell false (loadCellArgs [0, 1, 8, -1]) Vm.init := by
  rintro (h | ⟨cap, offset, hcall, -, ho⟩)
  · exact absurd h (by decide)
  · have hoffset : offset = 0 := (Prod.mk.inj (Option.some.inj hcall)).2.symm
    have := ho (-1) ⟨show 3 < 4 by decide, by decide⟩
    rw [hoffset] at this
    exact absurd this (by decide)

end CkbJs.Proof.CkbModule
