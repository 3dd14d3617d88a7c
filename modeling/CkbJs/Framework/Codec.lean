import CkbJs.Framework.WP

/-!
# Writers and readers of a byte format

A reader is a program over an `Input`, what is left of a file and how much
was read of it. `Reads r bs a`: from the bytes `bs`, whatever follows them, `r`
reads `a`. A writer is a program over a state with an output that grows; a
`Sink` says what the output is, which states are good, and which of them fit
what the reader will be given beside the file (a table that the writer is
still building, for example). `Sends K x r a`: each run of the writer `x` that
ends normally appends bytes from which the reader `r` reads `a`. The rules
follow the two programs side by side (`Sends.bind`, `Sends.forM`).

`Truncates E r`: on a shorter input `r` does what it does on the whole one, or
stops with an error of `E`. A file cut short is therefore refused with one of
these (`Truncates.error_of_reads`).
-/

namespace CkbJs.Codec

variable {ε ε' σ α β γ δ : Type}

/-- What is left of a file, and how much was read. -/
structure Input (β : Type) where
  rest : List β
  pos : Nat

abbrev Reader (ε β α : Type) := EStateM ε (Input β) α

/-- Reads `n` items, one after the other. -/
def readN (r : Reader ε β α) : Nat → Reader ε β (List α)
  | 0 => pure []
  | n + 1 => do
    let a ← r
    let as ← readN r n
    return a :: as

/-! ## Reading what was written -/

/-- From the bytes `bs`, `r` reads `a`. -/
def Reads (r : Reader ε β α) (bs : List β) (a : α) : Prop :=
  ∀ rest pos, r.run ⟨bs ++ rest, pos⟩ = .ok a ⟨rest, pos + bs.length⟩

namespace Reads

theorem of_pure (a : α) : Reads (pure a : Reader ε β α) [] a := fun _ _ => rfl

theorem bind {r : Reader ε β α} {g : α → Reader ε β γ} {bs bs' : List β} {a : α} {b : γ}
    (hr : Reads r bs a) (hg : Reads (g a) bs' b) : Reads (r >>= g) (bs ++ bs') b := by
  intro rest pos
  rw [EStateM.run_bind, List.append_assoc, hr]
  show (g a).run _ = _
  rw [hg, List.length_append, Nat.add_assoc]

/-- The second reader reads nothing. -/
theorem bind_nil {r : Reader ε β α} {g : α → Reader ε β γ} {bs : List β} {a : α} {b : γ} (hr : Reads r bs a)
    (h : Reads (g a) [] b) : Reads (r >>= g) bs b := by
  rw [← List.append_nil bs]
  exact hr.bind h

theorem bind_pure {r : Reader ε β α} {bs : List β} {a : α} {b : γ} {g : α → γ} (hr : Reads r bs a)
    (h : g a = b) : Reads (r >>= fun a => pure (g a)) bs b :=
  hr.bind_nil (h ▸ of_pure _)

theorem map {r : Reader ε β α} {bs : List β} {a : α} (hr : Reads r bs a) (g : α → γ) :
    Reads (g <$> r) bs (g a) := by
  rw [← bind_pure_comp]
  exact hr.bind_pure rfl

/-- What a reader reads does not depend on how it reports its errors. -/
theorem adaptExcept {r : Reader ε β α} {bs : List β} {a : α} (hr : Reads r bs a) (f : ε → ε') :
    Reads (r.adaptExcept f) bs a := by
  intro rest pos
  have h := hr rest pos
  unfold EStateM.run at h
  unfold EStateM.run EStateM.adaptExcept
  rw [h]

end Reads

/-- What a writer appends to, and what its reader can rely on. -/
structure Sink (σ β : Type) where
  out : σ → List β
  Good : σ → Prop
  Fits : σ → Prop

/-- The writer `x` sends `a` to the reader `r`. -/
def Sends (K : Sink σ β) (x : EStateM ε σ α) (r : Reader ε' β γ) (a : γ) : Prop :=
  ∀ s u s', K.Good s → x.run s = .ok u s' →
    K.Good s' ∧ (K.Fits s' → K.Fits s) ∧
      ∃ bs, K.out s' = K.out s ++ bs ∧ (K.Fits s' → Reads r bs a)

namespace Sends

variable {K : Sink σ β} {x : EStateM ε σ α} {r : Reader ε' β γ} {a : γ}

theorem of_wp (h : ∀ s, K.Good s → WP x s (fun _ s' => K.Good s' ∧ (K.Fits s' → K.Fits s) ∧
    ∃ bs, K.out s' = K.out s ++ bs ∧ (K.Fits s' → Reads r bs a)) fun _ _ => True) : Sends K x r a :=
  fun s _ _ hs hrun => (h s hs).ok hrun

theorem of_pure (u : α) (a : γ) : Sends K (pure u : EStateM ε σ α) (pure a : Reader ε' β γ) a := by
  rintro s _ _ hs ⟨⟩
  exact ⟨hs, id, [], by simp, fun _ => .of_pure a⟩

theorem of_throw (e : ε) : Sends K (throw e : EStateM ε σ α) r a := by
  rintro s u s' - ⟨⟩

theorem bind {f : α → EStateM ε σ δ} {τ : Type} {g : γ → Reader ε' β τ} {b : τ} (hx : Sends K x r a)
    (hf : ∀ u, Sends K (f u) (g a) b) : Sends K (x >>= f) (r >>= g) b := by
  intro s v s' hs h
  rw [EStateM.run_bind] at h
  split at h
  · rename_i u s₁ hxs
    obtain ⟨hs₁, hfit₁, bs₁, hout₁, hr₁⟩ := hx s u s₁ hs hxs
    obtain ⟨hs', hfit, bs, hout, hr⟩ := hf u s₁ v s' hs₁ h
    refine ⟨hs', fun hK => hfit₁ (hfit hK), bs₁ ++ bs, ?_, fun hK => (hr₁ (hfit hK)).bind (hr hK)⟩
    rw [hout, hout₁, List.append_assoc]
  · cases h

/-- The reader goes on without reading. -/
theorem bind_pure {b : δ} {g : γ → Reader ε' β δ} (hx : Sends K x r a) (h : g a = pure b) :
    Sends K x (r >>= g) b := by
  intro s u s' hs hrun
  obtain ⟨hs', hfit, bs, hout, hr⟩ := hx s u s' hs hrun
  refine ⟨hs', hfit, bs, hout, fun hK => ?_⟩
  exact (hr hK).bind_nil (h ▸ .of_pure b)

theorem map {b : δ} {g : γ → δ} (hx : Sends K x r a) (h : g a = b) : Sends K x (g <$> r) b := by
  rw [← bind_pure_comp]
  exact hx.bind_pure (congrArg pure h)

theorem adaptExcept {ε'' : Type} (hx : Sends K x r a) (f : ε' → ε'') : Sends K x (r.adaptExcept f) a := by
  intro s u s' hs hrun
  obtain ⟨hs', hfit, bs, hout, hr⟩ := hx s u s' hs hrun
  exact ⟨hs', hfit, bs, hout, fun hK => (hr hK).adaptExcept f⟩

theorem ite {c : Prop} [Decidable c] {y : EStateM ε σ α} (ht : c → Sends K x r a) (he : ¬c → Sends K y r a) :
    Sends K (if c then x else y) r a := by
  split
  · exact ht ‹_›
  · exact he ‹_›

/-- A loop of the writer, and the loop that reads as many items. -/
theorem forM {w : δ → EStateM ε σ PUnit} {c : δ → γ} {xs : List δ} (h : ∀ y ∈ xs, Sends K (w y) r (c y)) :
    Sends K (xs.forM w) (readN r xs.length) (xs.map c) := by
  induction xs with
  | nil => exact of_pure _ _
  | cons y ys ih =>
    refine (h y List.mem_cons_self).bind fun _ => ?_
    intro s u s' hs hrun
    obtain ⟨hs', hfit, bs, hout, hr⟩ := ih (fun z hz => h z (List.mem_cons_of_mem y hz)) s u s' hs hrun
    refine ⟨hs', hfit, bs, hout, fun hK => ?_⟩
    rw [bind_pure_comp]
    exact (hr hK).map _

end Sends

/-! ## Reading a shorter input -/

/-- On a shorter input `r` does the same, or stops with an error of `E`. -/
def Truncates (E : ε → Prop) (r : Reader ε β α) : Prop :=
  ∀ (i : Input β) (t : List β), match r.run ⟨i.rest ++ t, i.pos⟩ with
    | .ok a j => (∃ rest, j.rest = rest ++ t ∧ r.run i = .ok a ⟨rest, j.pos⟩) ∨
        ∃ e j', E e ∧ r.run i = .error e j'
    | .error e' _ => ∃ e j', (e = e' ∨ E e) ∧ r.run i = .error e j'

namespace Truncates

variable {E : ε → Prop} {r : Reader ε β α} {g : α → Reader ε β γ}

theorem of_pure (a : α) : Truncates E (pure a : Reader ε β α) := fun i _ => .inl ⟨i.rest, rfl, rfl⟩

theorem of_throw (e : ε) : Truncates E (throw e : Reader ε β α) := fun i _ => ⟨e, i, .inl rfl, rfl⟩

theorem bind (hr : Truncates E r) (hg : ∀ a, Truncates E (g a)) : Truncates E (r >>= g) := by
  intro i t
  have hi := hr i t
  rw [EStateM.run_bind, EStateM.run_bind]
  generalize r.run ⟨i.rest ++ t, i.pos⟩ = R at hi
  match R with
  | .ok a ⟨_, pos⟩ =>
    rcases hi with ⟨rest, rfl, hi⟩ | ⟨e, j, he, hi⟩
    · rw [hi]
      exact hg a ⟨rest, pos⟩ t
    · rw [hi]
      dsimp only
      split
      · exact .inr ⟨e, j, he, rfl⟩
      · exact ⟨e, j, .inr he, rfl⟩
  | .error e' _ =>
    obtain ⟨e, j, he, hi⟩ := hi
    rw [hi]
    exact ⟨e, j, he, rfl⟩

theorem map (hr : Truncates E r) (f : α → γ) : Truncates E (f <$> r) := by
  rw [← bind_pure_comp]
  exact hr.bind fun a => of_pure _

theorem ite {c : Prop} [Decidable c] {r' : Reader ε β α} (h : Truncates E r) (h' : Truncates E r') :
    Truncates E (if c then r else r') := by
  split
  · exact h
  · exact h'

theorem readN (hr : Truncates E r) (n : Nat) : Truncates E (readN r n) := by
  induction n with
  | zero => exact of_pure _
  | succ n ih => exact hr.bind fun _ => ih.bind fun _ => of_pure _

/-- Errors that are reported as others. -/
theorem adaptExcept (hr : Truncates E r) {f : ε → ε} (hf : ∀ e, E e → E (f e)) :
    Truncates E (r.adaptExcept f) := by
  intro i t
  have hi := hr i t
  unfold EStateM.run at hi
  unfold EStateM.run EStateM.adaptExcept
  generalize r ⟨i.rest ++ t, i.pos⟩ = R at hi
  match R with
  | .ok a _ =>
    rcases hi with ⟨rest, hrest, hi⟩ | ⟨e, j, he, hi⟩
    · rw [hi]
      exact .inl ⟨rest, hrest, rfl⟩
    · rw [hi]
      exact .inr ⟨f e, j, hf e he, rfl⟩
  | .error e' _ =>
    obtain ⟨e, j, he, hi⟩ := hi
    rw [hi]
    exact ⟨f e, j, he.imp (congrArg f) (hf e), rfl⟩

/-- A file cut short is refused. -/
theorem error_of_reads (hr : Truncates E r) {bs t : List β} {a : α} (h : Reads r (bs ++ t) a)
    (ht : t ≠ []) (pos : Nat) : ∃ e j, E e ∧ r.run ⟨bs, pos⟩ = .error e j := by
  have hi := hr ⟨bs, pos⟩ t
  have hrun := h [] pos
  rw [List.append_nil] at hrun
  rw [hrun] at hi
  rcases hi with ⟨rest, hrest, -⟩ | hi
  · exact absurd hrest (by simp [ht])
  · exact hi

end Truncates

end CkbJs.Codec
