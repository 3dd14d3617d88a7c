import CkbJs.Framework.Path

/-!
# Disks

A disk has a directory or a file at each location, or nothing. `follow` goes along a path
through directories, `mkdirP` makes those that are missing, and `fileAt` is the file that a
path names, which need not be there. `mkdirP_of_follow` and `mkdirP_downs` say what `mkdirP`
does along directories that are there, and along names. `laid` is what is on a disk when
files were put into an empty directory one after the other (`laid_put`).
-/

namespace CkbJs

universe u v

inductive DiskNode (β : Type v) where
  | directory
  | file (content : β)
  deriving DecidableEq

abbrev Disk (α : Type u) (β : Type v) := List α → Option (DiskNode β)

namespace Disk

variable {α : Type u} {β : Type v}

/-- Follows the path, where every step must end in a directory. -/
def follow (d : Disk α β) (loc : List α) : List (Move α) → Option (List α)
  | [] => some loc
  | m :: ms =>
    match d (Move.step loc m) with
    | some .directory => follow d (Move.step loc m) ms
    | _ => none

/-- The file that the path names: its last component is a name in a directory, and not the name
of a directory. -/
def fileAt (d : Disk α β) (loc : List α) (ms : List (Move α)) : Option (List α) :=
  match ms.getLast? with
  | some (.down a) =>
    match d.follow loc ms.dropLast with
    | some parent =>
      match d (parent ++ [a]) with
      | some .directory => none
      | _ => some (parent ++ [a])
    | none => none
  | _ => none

variable {d : Disk α β} {loc loc' : List α} {ms ms' : List (Move α)}

/-! ## Going along a path -/

theorem follow_append (xs ys : List (Move α)) :
    follow d loc (xs ++ ys) = (follow d loc xs).bind fun loc' => follow d loc' ys := by
  induction xs generalizing loc with
  | nil => rfl
  | cons m xs ih =>
    rw [List.cons_append, follow, follow]
    split
    · exact ih
    · rfl

/-- A path is followed to where it leads. -/
theorem walk_of_follow (h : follow d loc ms = some loc') : Move.walk loc ms = loc' := by
  induction ms generalizing loc with
  | nil => exact Option.some.inj h
  | cons m ms ih =>
    rw [follow] at h
    split at h
    · exact ih h
    · cases h

theorem follow_downs {names : List α} (h : ∀ p, p ≠ [] → p <+: names → d (loc ++ p) = some .directory) :
    follow d loc (names.map .down) = some (loc ++ names) := by
  induction names generalizing loc with
  | nil => rw [List.append_nil]; rfl
  | cons a names ih =>
    have hfirst : d (loc ++ [a]) = some .directory :=
      h [a] (List.cons_ne_nil a []) ⟨names, rfl⟩
    rw [List.map_cons, follow]
    simp only [Move.step, hfirst]
    rw [ih fun p hp hpre => ?_, List.append_assoc]
    · rfl
    · rw [List.append_assoc]
      exact h (a :: p) (List.cons_ne_nil a p) ((List.prefix_cons_inj a).mpr hpre)

theorem fileAt_concat {a : α} (h : follow d loc ms = some loc') (hd : d (loc' ++ [a]) ≠ some .directory) :
    fileAt d loc (ms ++ [.down a]) = some (loc' ++ [a]) := by
  unfold fileAt
  rw [List.getLast?_concat, List.dropLast_concat]
  dsimp only
  rw [h]
  dsimp only
  split
  · exact absurd ‹_› hd
  · rfl

/-- A path leads to the same place where all the directories are still there. -/
theorem follow_mono {d' : Disk α β} (hd : ∀ l, d l = some .directory → d' l = some .directory)
    (h : follow d loc ms = some loc') : follow d' loc ms = some loc' := by
  induction ms generalizing loc with
  | nil => exact h
  | cons m ms ih =>
    rw [follow] at h ⊢
    split at h
    · rename_i hm
      rw [hd _ hm]
      exact ih h
    · cases h

/-- A path that is followed ends in a directory. -/
theorem directory_of_follow (h : follow d loc ms = some loc') (hne : ms ≠ []) : d loc' = some .directory := by
  induction ms generalizing loc with
  | nil => exact absurd rfl hne
  | cons m ms ih =>
    rw [follow] at h
    split at h
    · rename_i hm
      cases ms with
      | nil => exact Option.some.inj h ▸ hm
      | cons m' ms => exact ih h (List.cons_ne_nil m' ms)
    · cases h

/-- From a directory, a path without a step up is followed like its names. -/
theorem follow_names (hloc : d loc = some .directory) (hup : .up ∉ ms) :
    follow d loc ms = follow d loc ((Move.names ms).map .down) := by
  induction ms generalizing loc with
  | nil => rfl
  | cons m ms ih =>
    rw [List.mem_cons, not_or] at hup
    cases m with
    | stay =>
      rw [follow]
      simp only [Move.step, hloc]
      exact ih hloc hup.2
    | up => exact absurd rfl hup.1
    | down a =>
      show follow d loc (.down a :: ms) = follow d loc (.down a :: (Move.names ms).map .down)
      rw [follow, follow]
      split
      · exact ih ‹_› hup.2
      · rfl

/-! ## Making directories -/

variable [DecidableEq α]

def set (d : Disk α β) (loc : List α) (n : DiskNode β) : Disk α β := fun l => if l = loc then some n else d l

/-- Makes the directories that are missing along the path. -/
def mkdirP (d : Disk α β) (loc : List α) : List (Move α) → Option (Disk α β)
  | [] => some d
  | m :: ms =>
    match d (Move.step loc m) with
    | some .directory => mkdirP d (Move.step loc m) ms
    | some (.file _) => none
    | none => mkdirP (d.set (Move.step loc m) .directory) (Move.step loc m) ms

@[simp] theorem set_self (d : Disk α β) (loc : List α) (n : DiskNode β) : d.set loc n loc = some n := if_pos rfl

theorem set_of_ne (d : Disk α β) {loc l : List α} (n : DiskNode β) (h : l ≠ loc) : d.set loc n l = d l := if_neg h

theorem mkdirP_append (xs ys : List (Move α)) : mkdirP d loc (xs ++ ys) =
    (mkdirP d loc xs).bind fun d' => mkdirP d' (Move.walk loc xs) ys := by
  induction xs generalizing d loc with
  | nil => rfl
  | cons m xs ih =>
    rw [List.cons_append, mkdirP, mkdirP]
    split
    · exact ih
    · rfl
    · exact ih

/-- Where all directories are there, none is made. -/
theorem mkdirP_of_follow (h : follow d loc ms = some loc') : mkdirP d loc ms = some d := by
  induction ms generalizing loc with
  | nil => rfl
  | cons m ms ih =>
    rw [follow] at h
    split at h
    · rename_i hdir
      rw [mkdirP, hdir]
      exact ih h
    · cases h

theorem set_set (d : Disk α β) (loc : List α) (n n' : DiskNode β) : (d.set loc n).set loc n' = d.set loc n' := by
  funext l
  by_cases h : l = loc
  · rw [h, set_self, set_self]
  · rw [set_of_ne _ _ h, set_of_ne _ _ h, set_of_ne _ _ h]

/-- A file does not take the place of a directory. -/
theorem directory_set {l : List α} (n : DiskNode β) (hloc : d loc ≠ some .directory)
    (hl : d l = some .directory) : d.set loc n l = some .directory := by
  rw [set_of_ne _ _ fun heq => hloc (by rw [← heq, hl])]
  exact hl

/-- From a directory, a path without a step up is made like its names. -/
theorem mkdirP_names (hloc : d loc = some .directory) (hup : .up ∉ ms) :
    mkdirP d loc ms = mkdirP d loc ((Move.names ms).map .down) := by
  induction ms generalizing d loc with
  | nil => rfl
  | cons m ms ih =>
    rw [List.mem_cons, not_or] at hup
    cases m with
    | stay =>
      rw [mkdirP]
      simp only [Move.step, hloc]
      exact ih hloc hup.2
    | up => exact absurd rfl hup.1
    | down a =>
      show mkdirP d loc (.down a :: ms) = mkdirP d loc (.down a :: (Move.names ms).map .down)
      rw [mkdirP, mkdirP]
      split
      · exact ih ‹_› hup.2
      · rfl
      · exact ih (set_self ..) hup.2

/-- Where there is no file on the way, `mkdirP` makes a directory of every name and changes
nothing else. -/
theorem mkdirP_downs {names : List α}
    (h : ∀ p, p ≠ [] → p <+: names → d (loc ++ p) = none ∨ d (loc ++ p) = some .directory) :
    ∃ d', mkdirP d loc (names.map .down) = some d' ∧
      (∀ p, p ≠ [] → p <+: names → d' (loc ++ p) = some .directory) ∧
      ∀ l, (∀ p, p ≠ [] → p <+: names → l ≠ loc ++ p) → d' l = d l := by
  induction names generalizing d loc with
  | nil => exact ⟨d, rfl, fun p hp hpre => absurd (List.prefix_nil.mp hpre) hp, fun _ _ => rfl⟩
  | cons a names ih =>
    have hcons {p : List α} (hp : p ≠ []) (hpre : p <+: a :: names) : ∃ q, p = a :: q ∧ q <+: names := by
      obtain ⟨b, q, rfl⟩ := List.exists_cons_of_ne_nil hp
      rw [List.cons_prefix_cons] at hpre
      exact ⟨q, by rw [hpre.1], hpre.2⟩
    have hsplit (q : List α) : loc ++ a :: q = loc ++ [a] ++ q := by simp
    -- the disk with the first directory
    have hfirst : ∃ d₁, mkdirP d loc ((a :: names).map .down) = mkdirP d₁ (loc ++ [a]) (names.map .down) ∧
        d₁ (loc ++ [a]) = some .directory ∧ ∀ l, l ≠ loc ++ [a] → d₁ l = d l := by
      rw [List.map_cons, mkdirP]
      rcases h [a] (List.cons_ne_nil a []) ⟨names, rfl⟩ with hn | hd
      · simp only [Move.step, hn]
        exact ⟨_, rfl, set_self .., fun l hl => set_of_ne d _ hl⟩
      · simp only [Move.step, hd]
        exact ⟨d, rfl, hd, fun _ _ => rfl⟩
    obtain ⟨d₁, hrun, hdir, hframe⟩ := hfirst
    have hlater {q : List α} (hq : q ≠ []) : loc ++ [a] ++ q ≠ loc ++ [a] := fun heq =>
      hq (List.append_right_eq_self.mp heq)
    obtain ⟨d', hd', hmade, hrest⟩ := @ih d₁ (loc ++ [a]) fun q hq hpre => by
      rw [hframe _ (hlater hq), ← hsplit]
      exact h (a :: q) (List.cons_ne_nil a q) ((List.prefix_cons_inj a).mpr hpre)
    refine ⟨d', hrun.trans hd', fun p hp hpre => ?_, fun l hl => ?_⟩
    · obtain ⟨q, rfl, hq⟩ := hcons hp hpre
      rw [hsplit]
      by_cases hnil : q = []
      · rw [hnil, List.append_nil, hrest _ fun r hr _ heq => hlater hr heq.symm]
        exact hdir
      · exact hmade q hnil hq
    · rw [hrest l fun q hq hpre heq => ?_, hframe l ?_]
      · exact hl [a] (List.cons_ne_nil a []) ⟨names, rfl⟩
      · exact hl (a :: q) (List.cons_ne_nil a q) ((List.prefix_cons_inj a).mpr hpre) (heq.trans (hsplit q).symm)

/-! ## Laying files out -/

/-- The content that was given last for the path. -/
def lastOf (files : List (List α × β)) (p : List α) : Option β :=
  (files.reverse.find? fun f => f.1 = p).map Prod.snd

/-- What is at a path below a directory in which the files were put one after the other. -/
def laid (files : List (List α × β)) (p : List α) : Option (DiskNode β) :=
  match lastOf files p with
  | some content => some (.file content)
  | none => if ∃ f ∈ files, p <+: f.1 then some .directory else none

/-- No path of a file leads on to another one. -/
def Apart (files : List (List α × β)) : Prop := ∀ f ∈ files, ∀ g ∈ files, f.1 <+: g.1 → f.1 = g.1

instance (files : List (List α × β)) : Decidable (Apart files) :=
  inferInstanceAs (Decidable (∀ f ∈ files, ∀ g ∈ files, f.1 <+: g.1 → f.1 = g.1))

variable {files : List (List α × β)} {p q : List α} {content : β}

omit [DecidableEq α] in
theorem Apart.of_append {files' : List (List α × β)} (h : Apart (files ++ files')) : Apart files :=
  fun f hf g hg => h f (List.mem_append_left files' hf) g (List.mem_append_left files' hg)

theorem lastOf_concat (f : List α × β) :
    lastOf (files ++ [f]) p = if f.1 = p then some f.2 else lastOf files p := by
  rw [lastOf, List.reverse_append, List.reverse_singleton, List.singleton_append, List.find?_cons]
  by_cases h : f.1 = p
  · rw [if_pos h, decide_eq_true h]
    rfl
  · rw [if_neg h, decide_eq_false h]
    rfl

theorem lastOf_eq_none : lastOf files p = none ↔ ∀ f ∈ files, f.1 ≠ p := by
  rw [lastOf, Option.map_eq_none_iff, List.find?_eq_none]
  simp only [List.mem_reverse, decide_eq_true_eq]

theorem laid_of_lastOf (h : lastOf files p = some content) : laid files p = some (.file content) := by
  rw [laid, h]

theorem laid_of_notMem (h : ∀ f ∈ files, f.1 ≠ p) :
    laid files p = if ∃ f ∈ files, p <+: f.1 then some .directory else none := by
  rw [laid, lastOf_eq_none.mpr h]

/-- Where no file has the path, one that is put elsewhere makes a difference on its way only. -/
theorem laid_concat {f : List α × β} (hne : f.1 ≠ p) (hpre : ¬p <+: f.1) :
    laid (files ++ [f]) p = laid files p := by
  have hex : (∃ g ∈ files ++ [f], p <+: g.1) ↔ ∃ g ∈ files, p <+: g.1 := by
    simp only [List.mem_append, List.mem_singleton, or_and_right, exists_or, exists_eq_left]
    exact or_iff_left hpre
  rw [laid, laid, lastOf_concat, if_neg hne]
  simp only [hex]

/-- A disk below a directory is laid out, and one more file is put: `mkdirP` makes its
directories, where a file can be created, and with the file the disk is laid out again. -/
theorem laid_put {root names : List α} {a : α} (hlaid : ∀ p, p ≠ [] → d (root ++ p) = laid files p)
    (hapart : Apart (files ++ [(names ++ [a], content)])) :
    ∃ d', mkdirP d root (names.map .down) = some d' ∧
      follow d' root (names.map .down) = some (root ++ names) ∧
      d' (root ++ names ++ [a]) ≠ some .directory ∧
      (∀ l, d l = some .directory → d' l = some .directory) ∧
      ∀ p, p ≠ [] → d'.set (root ++ names ++ [a]) (.file content) (root ++ p) =
        laid (files ++ [(names ++ [a], content)]) p := by
  have hmem : (names ++ [a], content) ∈ files ++ [(names ++ [a], content)] :=
    List.mem_append_right files (List.mem_singleton.mpr rfl)
  have hlong : ¬names ++ [a] <+: names := fun h => by
    have hlen := h.length_le
    rw [List.length_append, List.length_singleton] at hlen
    omega
  -- no file is in the way of the directories
  have habove {f : List α × β} (hf : f ∈ files) {p : List α} (hp : p <+: names) : f.1 ≠ p := by
    intro heq
    have h : f.1 = names ++ [a] := hapart f (List.mem_append_left _ hf) _ hmem
      (heq ▸ hp.trans (List.prefix_append names [a]))
    rw [← heq, h] at hp
    exact hlong hp
  obtain ⟨d', hmkdir, hmade, hframe⟩ := @mkdirP_downs α β d root _ names fun p hp hpre => by
    rw [hlaid p hp, laid_of_notMem fun f hf => habove hf hpre]
    split
    · exact .inr rfl
    · exact .inl rfl
  have hself : d' (root ++ names ++ [a]) = laid files (names ++ [a]) := by
    rw [hframe, List.append_assoc, hlaid _ (by simp)]
    intro p _ hpre heq
    rw [List.append_assoc, List.append_cancel_left_eq] at heq
    rw [← heq] at hpre
    exact hlong hpre
  have hfile : laid files (names ++ [a]) ≠ some .directory := by
    cases hlast : lastOf files (names ++ [a]) with
    | some c =>
      rw [laid_of_lastOf hlast]
      exact nofun
    | none =>
      rw [laid_of_notMem (lastOf_eq_none.mp hlast), if_neg]
      · exact nofun
      · rintro ⟨f, hf, hpre⟩
        exact lastOf_eq_none.mp hlast f hf (hapart _ hmem f (List.mem_append_left _ hf) hpre).symm
  refine ⟨d', hmkdir, follow_downs hmade, hself ▸ hfile, fun l hl => ?_, fun p hp => ?_⟩
  · by_cases hl' : ∃ p, p ≠ [] ∧ p <+: names ∧ l = root ++ p
    · obtain ⟨p, hp, hpre, rfl⟩ := hl'
      exact hmade p hp hpre
    · rw [hframe l fun p hp hpre heq => hl' ⟨p, hp, hpre, heq⟩]
      exact hl
  · by_cases heq : p = names ++ [a]
    · rw [heq, ← List.append_assoc, set_self, laid_of_lastOf (by rw [lastOf_concat, if_pos rfl])]
    · rw [set_of_ne _ _ fun h => heq (by rwa [List.append_assoc, List.append_cancel_left_eq] at h)]
      by_cases hpre : p <+: names
      · rw [hmade p hp hpre, laid_of_notMem, if_pos ⟨_, hmem, hpre.trans (List.prefix_append names [a])⟩]
        intro f hf
        rcases List.mem_append.mp hf with hf | hf
        · exact habove hf hpre
        · rw [List.mem_singleton.mp hf]
          exact fun h => heq h.symm
      · have hnot : ¬p <+: names ++ [a] := fun h => (List.prefix_concat_iff.mp h).elim heq hpre
        rw [laid_concat (Ne.symm heq) hnot, hframe]
        · exact hlaid p hp
        · exact fun q _ hq h => hpre (by rwa [List.append_cancel_left h])

end Disk

end CkbJs
