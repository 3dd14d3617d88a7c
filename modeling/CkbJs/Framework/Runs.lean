import CkbJs.Framework.WP
import Mathlib.Order.Defs.PartialOrder

/-!
# Comparing runs

`final` is the state a run ends in, however it ends. `Grows x`: a run of `x`
never goes down in the order of the states. `Extends e x y`: `y` does what `x`
does, except where `x` stops with `e`. `Pairs R B x y s t`: run from `s` and
`t`, the programs `x` and `y` end alike, in states related by `R`, unless `B`
tells their final states apart.
-/

namespace CkbJs

universe u

variable {ε σ τ α β : Type u}

/-- The state a run ends in. -/
def final (r : EStateM.Result ε σ α) : σ :=
  match r with
  | .ok _ s => s
  | .error _ s => s

/-- How a run goes on after its first part. -/
theorem run_bind_cases (x : EStateM ε σ α) (f : α → EStateM ε σ β) (s : σ) :
    (∃ a s', x.run s = .ok a s' ∧ (x >>= f).run s = (f a).run s') ∨
      ∃ e s', x.run s = .error e s' ∧ (x >>= f).run s = .error e s' := by
  rw [EStateM.run_bind]
  cases h : x.run s with
  | ok a s' => exact .inl ⟨a, s', rfl, rfl⟩
  | error e s' => exact .inr ⟨e, s', rfl, rfl⟩

theorem run_bind_congr {x y : EStateM ε σ α} {s s' : σ} (h : x.run s = y.run s') (f : α → EStateM ε σ β) :
    (x >>= f).run s = (y >>= f).run s' := by
  rw [EStateM.run_bind, EStateM.run_bind, h]

/-! ## Growing states -/

/-- No run of the program goes down. -/
def Grows [Preorder σ] (x : EStateM ε σ α) : Prop := ∀ s, s ≤ final (x.run s)

namespace Grows

variable [Preorder σ] {x : EStateM ε σ α} {f : α → EStateM ε σ β}

theorem of_pure (a : α) : Grows (pure a : EStateM ε σ α) := fun s => le_refl s

theorem of_throw (e : ε) : Grows (throw e : EStateM ε σ α) := fun s => le_refl s

theorem of_get : Grows (get : EStateM ε σ σ) := fun s => le_refl s

theorem bind (hx : Grows x) (hf : ∀ a, Grows (f a)) : Grows (x >>= f) := by
  intro s
  have hs := hx s
  rcases run_bind_cases x f s with ⟨a, s', h, hb⟩ | ⟨e, s', h, hb⟩ <;> rw [hb] <;> rw [h] at hs
  · exact le_trans hs (hf a s')
  · exact hs

/-- What comes after a program does not take back what it did. -/
theorem final_le_bind (hf : ∀ a, Grows (f a)) (s : σ) : final (x.run s) ≤ final ((x >>= f).run s) := by
  rcases run_bind_cases x f s with ⟨a, s', h, hb⟩ | ⟨e, s', h, hb⟩ <;> rw [hb, h]
  · exact hf a s'
  · exact le_refl s'

theorem ite {c : Prop} [Decidable c] {y : EStateM ε σ α} (hx : Grows x) (hy : Grows y) :
    Grows (if c then x else y) := by
  split
  · exact hx
  · exact hy

end Grows

/-! ## More fuel -/

/-- `y` does what `x` does, except where `x` stops with `e`. -/
def Extends (e : ε) (x y : EStateM ε σ α) : Prop :=
  ∀ s, (∃ s', x.run s = .error e s') ∨ y.run s = x.run s

namespace Extends

variable {e : ε} {x y : EStateM ε σ α} {f g : α → EStateM ε σ β}

theorem refl (x : EStateM ε σ α) : Extends e x x := fun _ => .inr rfl

theorem bind (hx : Extends e x y) (hf : ∀ a, Extends e (f a) (g a)) :
    Extends e (x >>= f) (y >>= g) := by
  intro s
  rw [EStateM.run_bind, EStateM.run_bind]
  rcases hx s with ⟨s', h⟩ | h
  · exact .inl ⟨s', by rw [h]⟩
  · rw [h]
    cases x.run s with
    | ok a s' => exact hf a s'
    | error e' s' => exact .inr rfl

end Extends

/-! ## Two runs -/

/-- The runs end alike, in related states. -/
def Alike (R : σ → τ → Prop) : EStateM.Result ε σ α → EStateM.Result ε τ α → Prop
  | .ok a s, .ok b t => a = b ∧ R s t
  | .error e s, .error e' t => e = e' ∧ R s t
  | _, _ => False

theorem Alike.final {R : σ → τ → Prop} {r : EStateM.Result ε σ α} {r' : EStateM.Result ε τ α}
    (h : Alike R r r') : R (final r) (final r') := by
  cases r <;> cases r' <;> first | exact h.2 | exact h.elim

/-- The runs end alike, unless `B` tells their final states apart. -/
def Pairs (R B : σ → τ → Prop) (x : EStateM ε σ α) (y : EStateM ε τ α) (s : σ) (t : τ) : Prop :=
  Alike R (x.run s) (y.run t) ∨ B (final (x.run s)) (final (y.run t))

namespace Pairs

variable {R B : σ → τ → Prop} {x : EStateM ε σ α} {y : EStateM ε τ α} {s : σ} {t : τ}

theorem of_pure (a : α) (h : R s t) : Pairs R B (pure a) (pure a : EStateM ε τ α) s t := .inl ⟨rfl, h⟩

theorem of_throw (e : ε) (h : R s t) :
    Pairs R B (throw e : EStateM ε σ α) (throw e : EStateM ε τ α) s t := .inl ⟨rfl, h⟩

/-- Sequencing: what tells the states apart is still there at the end. -/
theorem bind [Preorder σ] [Preorder τ] (hB : ∀ s s' t t', s ≤ s' → t ≤ t' → B s t → B s' t')
    {f : α → EStateM ε σ β} {g : α → EStateM ε τ β} (hf : ∀ a, Grows (f a)) (hg : ∀ a, Grows (g a))
    (h : Pairs R B x y s t) (hfg : ∀ a s' t', R s' t' → Pairs R B (f a) (g a) s' t') :
    Pairs R B (x >>= f) (y >>= g) s t := by
  unfold Pairs at h ⊢
  rcases run_bind_cases x f s with ⟨a, s', hx, hxb⟩ | ⟨e, s', hx, hxb⟩ <;>
    rcases run_bind_cases y g t with ⟨b, t', hy, hyb⟩ | ⟨e', t', hy, hyb⟩ <;>
    rw [hxb, hyb] <;> rw [hx, hy] at h
  · rcases h with ⟨rfl, h⟩ | h
    · exact hfg a s' t' h
    · exact .inr (hB s' _ t' _ (hf a s') (hg b t') h)
  · rcases h with h | h
    · exact h.elim
    · exact .inr (hB s' _ t' _ (hf a s') (le_refl t') h)
  · rcases h with h | h
    · exact h.elim
    · exact .inr (hB s' _ t' _ (le_refl s') (hg b t') h)
  · exact h

end Pairs

end CkbJs
