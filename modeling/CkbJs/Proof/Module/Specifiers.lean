import CkbJs.Spec.Imports

/-!
# Relative specifiers

On a path of canonical components, the loop of the normaliser drops the last component for
each `../` (`normalizeLeading_ups`) and ends at the first other component
(`normalizeLeading_of_components`). So a specifier that leads to a file normalises to its
path (`normalizeName_leads`).
-/

namespace CkbJs.Proof.Module

open CkbJs.Impl CkbJs.Impl.Module CkbJs.Spec.Imports

/-- The components of a path, or of a directory that it goes through. -/
def Canonical (cs : List (List Byte)) : Prop :=
  ∀ c ∈ cs, c ≠ [] ∧ c ≠ [dot] ∧ c ≠ [dot, dot] ∧ slash ∉ c

theorem canonical_components (p : RelPath) : Canonical p.components := fun c hc =>
  ⟨(p.canonical c hc).1, (p.canonical c hc).2.1, (p.canonical c hc).2.2, (p.plain c hc).1⟩

theorem canonical_dir (p : RelPath) : Canonical p.dir := fun c hc =>
  canonical_components p c (List.dropLast_subset _ hc)

/-! ## The last component -/

theorem splitLast_of_notMem {s : List Byte} (h : slash ∉ s) : splitLast s = none := by
  induction s with
  | nil => rfl
  | cons c cs ih =>
    rw [List.mem_cons, not_or] at h
    rw [splitLast, ih h.2]
    exact if_neg (Ne.symm h.1)

theorem splitLast_append (s : List Byte) {t : List Byte} (h : slash ∉ t) :
    splitLast (s ++ slash :: t) = some (s, t) := by
  induction s with
  | nil =>
    rw [List.nil_append, splitLast, splitLast_of_notMem h]
    rfl
  | cons c cs ih => rw [List.cons_append, splitLast, ih]

/-- What is before the last slash of a path, and what is after it. -/
theorem splitLast_joined {cs : List (List Byte)} {c : List Byte} (h : slash ∉ c) :
    splitLast (joined (cs ++ [c])) = if cs = [] then none else some (joined cs, c) := by
  by_cases hcs : cs = []
  · rw [if_pos hcs, hcs, List.nil_append, joined, List.intercalate_singleton]
    exact splitLast_of_notMem h
  · rw [if_neg hcs, joined_append hcs (List.cons_ne_nil c []), joined, joined,
      List.intercalate_singleton]
    exact splitLast_append _ h

theorem dirName_joined {cs : List (List Byte)} (h : ∀ c ∈ cs, slash ∉ c) :
    dirName (joined cs) = joined cs.dropLast := by
  obtain rfl | ⟨ds, c, rfl⟩ := List.eq_nil_or_concat cs
  · rfl
  · rw [List.concat_eq_append] at h ⊢
    rw [dirName, splitLast_joined (h c (by simp)), List.dropLast_concat]
    by_cases hds : ds = []
    · rw [if_pos hds, hds]
      rfl
    · rw [if_neg hds]

theorem removeLast_joined {cs : List (List Byte)} (h : Canonical cs) (hne : cs ≠ []) :
    removeLast (joined cs) = some (joined cs.dropLast) := by
  have hj : joined cs ≠ [] := joined_ne_nil (fun c hc => (h c hc).1) hne
  obtain ⟨ds, c, rfl⟩ := (List.eq_nil_or_concat cs).resolve_left hne
  rw [List.concat_eq_append] at h hj ⊢
  obtain ⟨-, hdot, hdots, hslash⟩ := h c (by simp)
  rw [removeLast, if_neg hj, splitLast_joined hslash, List.dropLast_concat]
  by_cases hds : ds = []
  · rw [if_pos hds, hds, List.nil_append, joined, List.intercalate_singleton, Option.getD_none]
    exact if_neg fun hc => hc.elim hdot hdots
  · rw [if_neg hds, Option.getD_some]
    exact if_neg fun hc => hc.elim hdot hdots

/-! ## The loop -/

theorem normalizeLeading_up {filename filename' : List Byte} (r : List Byte)
    (h : removeLast filename = some filename') :
    normalizeLeading filename (dot :: dot :: slash :: r) = normalizeLeading filename' r := by
  rw [normalizeLeading.eq_def]
  simp only [show ¬(dot = slash) by decide, and_false, if_false, and_self, if_true, h]

/-- Each `../` drops a component. -/
theorem normalizeLeading_ups {cs : List (List Byte)} (h : Canonical cs) {k : Nat} (hk : k ≤ cs.length)
    (r : List Byte) :
    normalizeLeading (joined cs) ((List.replicate k [dot, dot, slash]).flatten ++ r) =
      normalizeLeading (joined (cs.take (cs.length - k))) r := by
  induction k generalizing cs with
  | zero => rw [Nat.sub_zero, List.take_length]; rfl
  | succ k ih =>
    have hne : cs ≠ [] := List.ne_nil_of_length_pos (by omega)
    have hdrop : Canonical cs.dropLast := fun c hc => h c (List.dropLast_subset _ hc)
    rw [List.replicate_succ, List.flatten_cons, List.append_assoc]
    show normalizeLeading (joined cs) (dot :: dot :: slash :: (_ ++ r)) = _
    rw [normalizeLeading_up _ (removeLast_joined h hne), ih hdrop (by rw [List.length_dropLast]; omega),
      List.dropLast_eq_take, List.take_take, List.length_take]
    congr 3
    omega

/-- A component that is neither `.` nor `..` ends the loop. -/
theorem normalizeLeading_of_components {filename r c : List Byte} {cs : List (List Byte)}
    (hr : components r = c :: cs) (hdot : c ≠ [dot]) (hdots : c ≠ [dot, dot]) :
    normalizeLeading filename r = (filename, r) := by
  obtain h | ⟨r', rfl⟩ | ⟨r', filename', rfl, -⟩ := normalizeLeading_step filename r
  · exact h
  · have hsplit : components (dot :: slash :: r') = [dot] :: components r' :=
      components_append_slash [dot] r'
    exact absurd (List.cons.inj (hr.symm.trans hsplit)).1 hdot
  · have hsplit : components (dot :: dot :: slash :: r') = [dot, dot] :: components r' :=
      components_append_slash [dot, dot] r'
    exact absurd (List.cons.inj (hr.symm.trans hsplit)).1 hdots

/-! ## Specifiers -/

theorem normalizeLeading_specifier {cs rest : List (List Byte)} (h : Canonical cs) (hrest : Canonical rest)
    (hne : rest ≠ []) {k : Nat} (hk : k ≤ cs.length) :
    normalizeLeading (joined cs) (specifier k rest) = (joined (cs.take (cs.length - k)), joined rest) := by
  obtain ⟨c, ds, rfl⟩ := List.exists_cons_of_ne_nil hne
  obtain ⟨-, hdot, hdots, -⟩ := hrest c List.mem_cons_self
  have hcomponents := components_joined (fun c hc => (hrest c hc).2.2.2) hne
  have hend (filename : List Byte) : normalizeLeading filename (joined (c :: ds)) = (filename, joined (c :: ds)) :=
    normalizeLeading_of_components hcomponents hdot hdots
  unfold specifier
  by_cases h0 : k = 0
  · rw [if_pos h0, normalizeLeading_stay, hend, h0, Nat.sub_zero, List.take_length]
  · rw [if_neg h0, normalizeLeading_ups h hk, hend]

theorem head?_specifier (k : Nat) (rest : List (List Byte)) : (specifier k rest).head? = some dot := by
  unfold specifier
  split
  · rfl
  · obtain ⟨k, rfl⟩ := Nat.exists_eq_succ_of_ne_zero ‹k ≠ 0›
    rfl

/-- A specifier that leads to a file normalises to its path. -/
theorem normalizeName_leads {base target : RelPath} {name : CString} (h : Leads base target name.1) :
    normalizeName base.text name = target.text := by
  apply Subtype.ext
  show normalizeBytes (joined base.components) name.1 = joined target.components
  generalize name.1 = s at h
  obtain ⟨k, rest, hk, hne, htarget⟩ := h
  have hdir : dirName (joined base.components) = joined base.dir :=
    dirName_joined fun c hc => (canonical_components base c hc).2.2.2
  have hrest : Canonical rest := fun c hc =>
    canonical_components target c (htarget ▸ List.mem_append_right _ hc)
  rw [normalizeBytes, if_neg (not_not_intro (head?_specifier k rest)), hdir,
    normalizeLeading_specifier (canonical_dir base) hrest hne hk, htarget]
  generalize htake : base.dir.take (base.dir.length - k) = cs
  have hcs : Canonical cs := fun c hc => canonical_dir base c (List.mem_of_mem_take (htake ▸ hc))
  dsimp only
  by_cases hnil : cs = []
  · rw [hnil]
    rfl
  · rw [if_neg (joined_ne_nil (fun c hc => (hcs c hc).1) hnil), joined_append hnil hne]

end CkbJs.Proof.Module
