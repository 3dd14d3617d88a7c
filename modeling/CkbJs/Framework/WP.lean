/-!
# Weakest preconditions of programs that change a state and may stop

`WP x s Q R`: run from `s`, the program `x` either ends normally in a state
satisfying `Q`, or stops in a state satisfying `R`. The rules follow the
shape of a program: `WP.bind` for sequencing, `WP.ite` for a branch, `WP.mono`
to weaken the postconditions. Since a program is a function of its state,
`WP` describes its one run, two specifications of a program combine
(`WP.and`). `Keeps I x`: every run of `x` keeps the invariant `I`.
-/

namespace CkbJs

universe u

variable {ε σ α β : Type u}

/-- From `s`, `x` ends normally with `Q` or stops with `R`. -/
def WP (x : EStateM ε σ α) (s : σ) (Q : α → σ → Prop) (R : ε → σ → Prop) : Prop :=
  match x.run s with
  | .ok a s' => Q a s'
  | .error e s' => R e s'

namespace WP

variable {x : EStateM ε σ α} {f : α → EStateM ε σ β} {s : σ}

theorem mono {Q Q' : α → σ → Prop} {R R' : ε → σ → Prop} (h : WP x s Q R)
    (hQ : ∀ a s', Q a s' → Q' a s') (hR : ∀ e s', R e s' → R' e s') : WP x s Q' R' := by
  unfold WP at h ⊢
  split at h
  · exact hQ _ _ h
  · exact hR _ _ h

theorem bind {Q : β → σ → Prop} {R : ε → σ → Prop}
    (h : WP x s (fun a s' => WP (f a) s' Q R) R) : WP (x >>= f) s Q R := by
  unfold WP at h ⊢
  rw [EStateM.run_bind]
  generalize x.run s = r at h
  cases r with
  | ok a s' => exact h
  | error e s' => exact h

/-- Sequencing, from a specification of the first program. -/
theorem seq {P : α → σ → Prop} {Q : β → σ → Prop} {R R' : ε → σ → Prop} (h : WP x s P R')
    (hR : ∀ e s', R' e s' → R e s') (hf : ∀ a s', P a s' → WP (f a) s' Q R) :
    WP (x >>= f) s Q R :=
  bind (h.mono hf hR)

/-- A run that goes like another one. -/
theorem of_run {y : EStateM ε σ α} {s' : σ} {Q : α → σ → Prop} {R : ε → σ → Prop}
    (h : x.run s = y.run s') (hy : WP y s' Q R) : WP x s Q R := by
  unfold WP at hy ⊢
  rwa [h]

/-- A program that does not stop has a result. -/
theorem exists_ok {Q : α → σ → Prop} (h : WP x s Q fun _ _ => False) :
    ∃ a s', x.run s = .ok a s' ∧ Q a s' := by
  unfold WP at h
  split at h
  · exact ⟨_, _, ‹_›, h⟩
  · exact h.elim

/-- What holds of a run that ended normally. -/
theorem ok {a : α} {s' : σ} {Q : α → σ → Prop} {R : ε → σ → Prop} (h : WP x s Q R)
    (hx : x.run s = .ok a s') : Q a s' := by
  unfold WP at h
  rwa [hx] at h

/-- What holds of a run that stopped. -/
theorem error {e : ε} {s' : σ} {Q : α → σ → Prop} {R : ε → σ → Prop} (h : WP x s Q R)
    (hx : x.run s = .error e s') : R e s' := by
  unfold WP at h
  rwa [hx] at h

theorem of_pure {a : α} {Q : α → σ → Prop} {R : ε → σ → Prop} (h : Q a s) :
    WP (pure a : EStateM ε σ α) s Q R := h

theorem of_throw {e : ε} {Q : α → σ → Prop} {R : ε → σ → Prop} (h : R e s) :
    WP (throw e : EStateM ε σ α) s Q R := h

theorem of_get {Q : σ → σ → Prop} {R : ε → σ → Prop} (h : Q s s) :
    WP (get : EStateM ε σ σ) s Q R := h

theorem of_set {t : σ} {Q : PUnit → σ → Prop} {R : ε → σ → Prop} (h : Q ⟨⟩ t) :
    WP (set t : EStateM ε σ PUnit) s Q R := h

theorem of_modify {g : σ → σ} {Q : PUnit → σ → Prop} {R : ε → σ → Prop} (h : Q ⟨⟩ (g s)) :
    WP (modify g : EStateM ε σ PUnit) s Q R := h

theorem of_modifyGet {g : σ → α × σ} {Q : α → σ → Prop} {R : ε → σ → Prop} (h : Q (g s).1 (g s).2) :
    WP (modifyGet g : EStateM ε σ α) s Q R := h

theorem ite {c : Prop} [Decidable c] {y : EStateM ε σ α} {Q : α → σ → Prop} {R : ε → σ → Prop}
    (ht : c → WP x s Q R) (he : ¬c → WP y s Q R) : WP (if c then x else y) s Q R := by
  split
  · exact ht ‹_›
  · exact he ‹_›

/-- Two specifications of one run hold together. -/
theorem and {Q Q' : α → σ → Prop} {R R' : ε → σ → Prop} (h : WP x s Q R) (h' : WP x s Q' R') :
    WP x s (fun a s' => Q a s' ∧ Q' a s') (fun e s' => R e s' ∧ R' e s') := by
  unfold WP at h h' ⊢
  split at h
  · rename_i he; rw [he] at h'; exact ⟨h, h'⟩
  · rename_i he; rw [he] at h'; exact ⟨h, h'⟩

end WP

/-- Every run of the program keeps the invariant, however it ends. -/
def Keeps (I : σ → Prop) (x : EStateM ε σ α) : Prop :=
  ∀ s, I s → WP x s (fun _ s' => I s') (fun _ s' => I s')

namespace Keeps

variable {I : σ → Prop} {x : EStateM ε σ α} {f : α → EStateM ε σ β}

theorem bind (hx : Keeps I x) (hf : ∀ a, Keeps I (f a)) : Keeps I (x >>= f) :=
  fun s hs => WP.seq (hx s hs) (fun _ _ h => h) fun a s' h => hf a s' h

theorem of_pure (a : α) : Keeps I (pure a : EStateM ε σ α) := fun _ hs => hs

theorem of_throw (e : ε) : Keeps I (throw e : EStateM ε σ α) := fun _ hs => hs

theorem of_get : Keeps I (get : EStateM ε σ σ) := fun _ hs => hs

theorem of_modify {g : σ → σ} (h : ∀ s, I s → I (g s)) : Keeps I (modify g : EStateM ε σ PUnit) := h

theorem ite {c : Prop} [Decidable c] {y : EStateM ε σ α} (hx : Keeps I x) (hy : Keeps I y) :
    Keeps I (if c then x else y) := by
  split
  · exact hx
  · exact hy

end Keeps

end CkbJs
