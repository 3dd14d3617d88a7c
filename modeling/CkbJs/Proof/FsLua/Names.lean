import CkbJs.Spec.FsLua
import Mathlib.Data.List.Chain
import Mathlib.Data.List.Nodup

/-!
# The names of packed files

`normalize_relative_path` removes components (`components_normalize`): each `.` that another
component follows, except one right behind a `.` that has been removed (`squeeze`). So the
names of paths without `..` that climbs are contained (`contained_iff`), and the names of
paths without two `.` in a row are canonical (`canonical_iff`).
-/

namespace CkbJs.Proof.FsLua

open CkbJs.Impl.FsLua CkbJs.Spec.FsLua

/-! ## Components that are removed -/

/-- Without each `.` that another component follows; the component behind one is kept. -/
def squeeze : List (List Byte) → List (List Byte)
  | c :: d :: rest =>
    if d = [dot] ∧ rest ≠ [] then c :: squeeze rest else c :: squeeze (d :: rest)
  | cs => cs

theorem squeeze_cons_eq (c : List Byte) (cs : List (List Byte)) :
    squeeze (c :: cs) = c :: (squeeze (c :: cs)).tail := by
  cases cs with
  | nil => rfl
  | cons d rest =>
    rw [squeeze]
    split <;> rfl

/-- Nothing depends on the first component. -/
theorem tail_squeeze (c c' : List Byte) (cs : List (List Byte)) :
    (squeeze (c :: cs)).tail = (squeeze (c' :: cs)).tail := by
  cases cs with
  | nil => rfl
  | cons d rest =>
    rw [squeeze, squeeze]
    split <;> rfl

theorem squeeze_ne_nil {cs : List (List Byte)} (h : cs ≠ []) : squeeze cs ≠ [] := by
  obtain ⟨c, cs, rfl⟩ := List.exists_cons_of_ne_nil h
  rw [squeeze_cons_eq]
  exact List.cons_ne_nil _ _

theorem tail_squeeze_ne_nil (c : List Byte) {cs : List (List Byte)} (h : cs ≠ []) :
    (squeeze (c :: cs)).tail ≠ [] := by
  obtain ⟨d, cs, rfl⟩ := List.exists_cons_of_ne_nil h
  rw [squeeze]
  split
  · exact squeeze_ne_nil (‹_ ∧ _›).2
  · exact squeeze_ne_nil (List.cons_ne_nil d cs)

theorem squeeze_modifyHead (f : List Byte → List Byte) (cs : List (List Byte)) :
    squeeze (cs.modifyHead f) = (squeeze cs).modifyHead f := by
  cases cs with
  | nil => rfl
  | cons c cs =>
    rw [List.modifyHead_cons, squeeze_cons_eq, squeeze_cons_eq c, List.modifyHead_cons,
      tail_squeeze (f c) c]

/-- A component that is not a `.` before another one is kept. -/
theorem squeeze_cons_of_not {c : List Byte} {cs : List (List Byte)}
    (h : ∀ rest, cs = [dot] :: rest → rest = []) : squeeze (c :: cs) = c :: squeeze cs := by
  cases cs with
  | nil => rfl
  | cons d rest =>
    refine if_neg fun hd => hd.2 (h rest ?_)
    rw [hd.1]

/-- A path starts with a `.` and another component. -/
theorem eq_of_components_eq_dot {p : List Byte} {cs : List (List Byte)}
    (h : components p = [dot] :: cs) (hcs : cs ≠ []) : ∃ q, p = dot :: slash :: q := by
  obtain ⟨c, cs, rfl⟩ := List.exists_cons_of_ne_nil hcs
  refine ⟨joined (c :: cs), ?_⟩
  rw [← joined_components p, h, joined, List.intercalate_cons_cons]
  rfl

theorem components_removeInner (p : List Byte) : components (removeInner p) = squeeze (components p) := by
  induction p using removeInner.induct with
  | case1 a b c rest h ih =>
    obtain ⟨rfl, rfl, rfl⟩ := h
    have hsplit : components (slash :: dot :: slash :: rest) = [] :: [dot] :: components rest := by
      rw [components_cons, if_pos rfl]
      exact congrArg _ (components_append_slash [dot] rest)
    rw [removeInner, if_pos ⟨rfl, rfl, rfl⟩, components_cons, if_pos rfl, ih, hsplit, squeeze,
      if_pos ⟨rfl, components_ne_nil rest⟩]
  | case2 a b c rest h ih =>
    rw [removeInner, if_neg h, components_cons, components_cons a, ih]
    by_cases ha : a = slash
    · rw [if_pos ha, if_pos ha]
      refine (squeeze_cons_of_not fun cs hcs => ?_).symm
      by_contra hne
      obtain ⟨q, hq⟩ := eq_of_components_eq_dot hcs hne
      cases hq
      exact h ⟨ha, rfl, rfl⟩
    · rw [if_neg ha, if_neg ha, squeeze_modifyHead]
  | case3 p h =>
    rw [removeInner.eq_2 p h]
    match p, h with
    | [], _ => rfl
    | [a], _ =>
      rw [components_cons]
      split <;> rfl
    | [a, b], _ =>
      rw [components_cons, components_cons b, show components [] = [[]] from rfl]
      split
      · split
        · rfl
        · exact (squeeze_cons_of_not fun rest hrest => (List.cons.inj hrest).2.symm).symm
      · split <;> rfl
    | a :: b :: c :: p, h => exact absurd rfl (h a b c p)

/-- The leading `.` is removed as if a slash stood before it. -/
theorem components_normalize (path : List Byte) :
    components (normalizeRelativePath path) = (squeeze ([] :: components path)).tail := by
  rw [normalizeRelativePath, components_removeInner]
  by_cases h : ∃ q, path = dot :: slash :: q
  · obtain ⟨q, rfl⟩ := h
    rw [show components (dot :: slash :: q) = [dot] :: components q from components_append_slash [dot] q,
      squeeze, if_pos ⟨rfl, components_ne_nil q⟩]
    rfl
  · have hkeep : removeLeading path = path := by
      unfold removeLeading
      split
      · rename_i a b rest
        refine if_neg fun hab => h ⟨rest, ?_⟩
        rw [hab.1, hab.2]
      · rfl
    rw [hkeep, squeeze_cons_of_not fun cs hcs => ?_, List.tail_cons]
    by_contra hne
    exact h (eq_of_components_eq_dot hcs hne)

theorem tail_squeeze_eq_self {c : List Byte} {cs : List (List Byte)} (h : [dot] ∉ cs.dropLast) :
    (squeeze (c :: cs)).tail = cs := by
  induction cs generalizing c with
  | nil => rfl
  | cons d cs ih =>
    rw [squeeze_cons_of_not fun rest hrest => ?_, List.tail_cons, squeeze_cons_eq, ih fun hd => h ?_]
    · cases cs with
      | nil => exact hd
      | cons e es => exact List.mem_cons_of_mem d hd
    · cases hrest
      cases cs with
      | nil => rfl
      | cons e es => exact absurd List.mem_cons_self h

theorem squeeze_eq_self {cs : List (List Byte)} (h : [dot] ∉ cs.tail.dropLast) : squeeze cs = cs := by
  cases cs with
  | nil => rfl
  | cons c cs => rw [squeeze_cons_eq, tail_squeeze_eq_self (show [dot] ∉ cs.dropLast from h)]

/-- A `./` in front makes no difference. -/
theorem normalize_dot_slash {name : List Byte} (h : [dot] ∉ (components name).tail.dropLast) :
    normalizeRelativePath (dot :: slash :: name) = name := by
  refine components_injective ?_
  have hsplit : components (dot :: slash :: name) = [dot] :: components name :=
    components_append_slash [dot] name
  rw [components_normalize, hsplit, squeeze, if_pos ⟨rfl, components_ne_nil name⟩, List.tail_cons,
    squeeze_eq_self h]

/-- What the components are without the `.` that another one follows. -/
def drop (cs : List (List Byte)) : List (List Byte) :=
  cs.dropLast.filter (fun c => c ≠ [dot]) ++ cs.getLast?.toList

theorem drop_cons {c : List Byte} {cs : List (List Byte)} (h : cs ≠ []) :
    drop (c :: cs) = if c = [dot] then drop cs else c :: drop cs := by
  obtain ⟨d, cs, rfl⟩ := List.exists_cons_of_ne_nil h
  rw [drop, List.dropLast_cons_cons, List.getLast?_cons_cons]
  split
  · rw [List.filter_cons_of_neg (by simpa)]
    rfl
  · rw [List.filter_cons_of_pos (by simpa)]
    rfl

theorem drop_squeeze (cs : List (List Byte)) : drop (squeeze cs) = drop cs := by
  induction cs using squeeze.induct with
  | case1 c d rest h ih =>
    rw [squeeze, if_pos h, drop_cons (squeeze_ne_nil h.2), drop_cons (List.cons_ne_nil d rest),
      drop_cons h.2, if_pos h.1, ih]
  | case2 c d rest h ih =>
    rw [squeeze, if_neg h, drop_cons (squeeze_ne_nil (List.cons_ne_nil d rest)),
      drop_cons (List.cons_ne_nil d rest), ih]
  | case3 cs h => rw [squeeze.eq_2 cs h]

theorem drop_tail_squeeze {cs : List (List Byte)} (h : cs ≠ []) :
    drop (squeeze ([] :: cs)).tail = drop cs := by
  have hall := drop_squeeze ([] :: cs)
  rw [squeeze_cons_eq, drop_cons (tail_squeeze_ne_nil [] h), drop_cons h] at hall
  exact List.tail_eq_of_cons_eq hall

theorem drop_eq_self {cs : List (List Byte)} (h : [dot] ∉ cs.dropLast) : drop cs = cs := by
  rcases List.eq_nil_or_concat cs with rfl | ⟨cs, c, rfl⟩
  · rfl
  · rw [List.concat_eq_append, List.dropLast_concat] at h
    rw [drop, List.concat_eq_append, List.dropLast_concat, List.getLast?_concat,
      List.filter_eq_self.mpr fun d hd => ?_]
    · rfl
    · simp only [ne_eq, decide_not, Bool.not_eq_true', decide_eq_false_iff_not]
      rintro rfl
      exact h hd

/-- Not both components are a `.`. -/
def Apart (c d : List Byte) : Prop := ¬(c = [dot] ∧ d = [dot])

theorem isChain_apart_cons {c : List Byte} (h : c ≠ [dot]) (cs : List (List Byte)) :
    (c :: cs).IsChain Apart ↔ cs.IsChain Apart := by
  rw [List.isChain_cons]
  exact and_iff_right fun _ _ hc => h hc.1

/-- A `.` is kept where one follows another one. -/
theorem dot_notMem_squeeze (cs : List (List Byte)) :
    [dot] ∉ (squeeze cs).tail.dropLast ↔ cs.tail.dropLast.IsChain Apart := by
  -- a component in front, where another one follows
  have hcons (d e : List Byte) (es : List (List Byte)) : [dot] ∉ (squeeze (d :: e :: es)).dropLast ↔
      d ≠ [dot] ∧ [dot] ∉ (squeeze (d :: e :: es)).tail.dropLast := by
    obtain ⟨f, fs, hfs⟩ := List.exists_cons_of_ne_nil (tail_squeeze_ne_nil d (List.cons_ne_nil e es))
    rw [squeeze_cons_eq, List.tail_cons, hfs, List.dropLast_cons_cons, List.mem_cons, not_or,
      ne_comm]
  induction cs using squeeze.induct with
  | case1 c d rest h ih =>
    obtain ⟨rfl, hne⟩ := h
    rw [squeeze, if_pos ⟨rfl, hne⟩, List.tail_cons, List.tail_cons]
    obtain ⟨e, es, rfl⟩ := List.exists_cons_of_ne_nil hne
    cases es with
    | nil => exact iff_of_true List.not_mem_nil (List.isChain_singleton _)
    | cons f fs =>
      rw [hcons, List.dropLast_cons_cons, List.dropLast_cons_cons, List.isChain_cons_cons]
      refine ⟨fun ⟨he, h⟩ => ⟨fun hc => he hc.2, (isChain_apart_cons he _).mpr (ih.mp h)⟩, fun ⟨he, h⟩ => ?_⟩
      have he : e ≠ [dot] := fun hc => he ⟨rfl, hc⟩
      exact ⟨he, ih.mpr ((isChain_apart_cons he _).mp h)⟩
  | case2 c d rest h ih =>
    rw [squeeze, if_neg h, List.tail_cons, List.tail_cons]
    cases rest with
    | nil => exact iff_of_true List.not_mem_nil List.isChain_nil
    | cons e es =>
      have hd : d ≠ [dot] := fun hc => h ⟨hc, List.cons_ne_nil e es⟩
      rw [hcons, and_iff_right hd, List.dropLast_cons_cons, isChain_apart_cons hd]
      exact ih
  | case3 cs h =>
    match cs, h with
    | [], _ => exact iff_of_true List.not_mem_nil List.isChain_nil
    | [c], _ => exact iff_of_true List.not_mem_nil List.isChain_nil
    | c :: d :: cs, h => exact absurd rfl (h c d cs)

/-! ## Canonical names -/

theorem mustNormalizePath_eq_ok {path name : List Byte} :
    mustNormalizePath path = .ok name ↔ isIdealPath path = true ∧ name = normalizeRelativePath path := by
  unfold mustNormalizePath
  split
  · exact ⟨fun h => ⟨‹_›, by cases h; rfl⟩, fun h => by rw [h.2]⟩
  · exact ⟨fun h => (by cases h), fun h => absurd h.1 ‹_›⟩

theorem dot_notMem_normalize (path : List Byte) :
    [dot] ∉ (components (normalizeRelativePath path)).dropLast ↔ Undoubled path := by
  rw [components_normalize]
  exact dot_notMem_squeeze ([] :: components path)

theorem undotted_normalize (path : List Byte) : undotted (normalizeRelativePath path) = undotted path := by
  have h := drop_tail_squeeze (components_ne_nil path)
  rw [← components_normalize] at h
  exact h

theorem normalize_eq_self {name : List Byte} (h : [dot] ∉ (components name).dropLast) :
    normalizeRelativePath name = name :=
  components_injective (by rw [components_normalize, tail_squeeze_eq_self h])

theorem normal_normalize (path : List Byte) : Normal (normalizeRelativePath path) ↔ Undoubled path := by
  rw [← dot_notMem_normalize]
  exact ⟨Normal.undotted, fun h => ⟨h, normalize_eq_self h⟩⟩

/-- A normal name is what its path is without each `.` that another component follows. -/
theorem components_of_undoubled {path : List Byte} (h : Undoubled path) :
    components (normalizeRelativePath path) = undotted path := by
  rw [← undotted_normalize]
  exact (drop_eq_self ((dot_notMem_normalize path).mpr h)).symm

/-! ### The table -/

theorem mem_setEntry {files : List Entry} {name path : List Byte} {e : Entry} :
    e ∈ setEntry files name path ↔ e ∈ files ∧ e.1 ≠ name ∨ e = (name, path) := by
  simp [setEntry]

theorem map_fst_setEntry (files : List Entry) (name path : List Byte) :
    (setEntry files name path).map Prod.fst = (files.map Prod.fst).filter (· ≠ name) ++ [name] := by
  rw [setEntry, List.map_append, List.filter_map]
  rfl

theorem nodup_setEntry {files : List Entry} (h : (files.map Prod.fst).Nodup) (name path : List Byte) :
    ((setEntry files name path).map Prod.fst).Nodup := by
  rw [map_fst_setEntry, ← List.concat_eq_append]
  refine List.Nodup.concat (fun hmem => ?_) (h.filter _)
  have := (List.mem_filter.mp hmem).2
  simp at this

/-- What `do_pack` adds to a table. -/
theorem addEntries_spec {paths : List (List Byte)} {files files' : List Entry}
    (h : addEntries paths files = .ok files') (hnodup : (files.map Prod.fst).Nodup) :
    (files'.map Prod.fst).Nodup ∧
      ∀ e ∈ files', e ∈ files ∨ e.2 ∈ paths ∧ mustNormalizePath e.2 = .ok e.1 := by
  induction paths generalizing files with
  | nil =>
    cases h
    exact ⟨hnodup, fun e he => .inl he⟩
  | cons path paths ih =>
    rw [addEntries] at h
    cases hname : mustNormalizePath path with
    | error e =>
      rw [hname] at h
      cases h
    | ok name =>
      rw [hname] at h
      obtain ⟨hnodup', hmem⟩ := ih h (nodup_setEntry hnodup name path)
      refine ⟨hnodup', fun e he => ?_⟩
      rcases hmem e he with he | ⟨hp, hn⟩
      · rcases mem_setEntry.mp he with ⟨he, -⟩ | rfl
        · exact .inl he
        · exact .inr ⟨List.mem_cons_self, hname⟩
      · exact .inr ⟨List.mem_cons_of_mem path hp, hn⟩

theorem setEntry_of_notMem {files : List Entry} {name : List Byte} (h : name ∉ files.map Prod.fst)
    (path : List Byte) : setEntry files name path = files ++ [(name, path)] := by
  rw [setEntry, List.filter_eq_self.mpr fun e he => ?_]
  exact decide_eq_true fun heq => h (heq ▸ List.mem_map_of_mem he)

/-- The table of accepted paths with different names. -/
theorem addEntries_eq {paths : List (List Byte)} {files : List Entry}
    (hideal : ∀ path ∈ paths, isIdealPath path = true)
    (hnodup : (files.map Prod.fst ++ paths.map normalizeRelativePath).Nodup) :
    addEntries paths files = .ok (files ++ paths.map fun path => (normalizeRelativePath path, path)) := by
  induction paths generalizing files with
  | nil => rw [List.map_nil, List.append_nil]; rfl
  | cons path paths ih =>
    have hname : mustNormalizePath path = .ok (normalizeRelativePath path) :=
      mustNormalizePath_eq_ok.mpr ⟨hideal path List.mem_cons_self, rfl⟩
    rw [List.map_cons, List.append_cons] at hnodup
    have hnot : normalizeRelativePath path ∉ files.map Prod.fst := fun hmem =>
      absurd rfl ((List.pairwise_append.mp hnodup.of_append_left).2.2 _ hmem _ (List.mem_singleton_self _))
    rw [addEntries, hname]
    show addEntries paths (setEntry files (normalizeRelativePath path) path) = _
    rw [setEntry_of_notMem hnot, ih (fun p hp => hideal p (List.mem_cons_of_mem path hp)) ?_,
      List.append_assoc]
    · rfl
    · rw [List.map_append]
      exact hnodup

/-- The names are canonical exactly where no accepted path has two `.` components in a row
before its last component. -/
theorem canonical_iff (paths : List (List Byte)) :
    Canonical paths ↔ ∀ path ∈ paths, isIdealPath path = true → Undoubled path := by
  constructor
  · intro h path hp hideal
    have := h.normal path hp _ (mustNormalizePath_eq_ok.mpr ⟨hideal, rfl⟩)
    exact (normal_normalize path).mp this
  · intro h
    have hname {path name : List Byte} (hp : path ∈ paths) (hn : mustNormalizePath path = .ok name) :
        Normal name ∧ components name = undotted path := by
      obtain ⟨hideal, rfl⟩ := mustNormalizePath_eq_ok.mp hn
      have hun := h path hp hideal
      exact ⟨(normal_normalize path).mpr hun, components_of_undoubled hun⟩
    have hunique : ∀ path ∈ paths, ∀ path' ∈ paths, ∀ name name', mustNormalizePath path = .ok name →
        mustNormalizePath path' = .ok name' → undotted path = undotted path' → name = name' := by
      intro path hp path' hp' name name' hn hn' heq
      refine components_injective ?_
      rw [(hname hp hn).2, (hname hp' hn').2, heq]
    refine ⟨fun path hp name hn => (hname hp hn).1, hunique, fun files hfiles => ?_⟩
    obtain ⟨hnodup, hmem⟩ := addEntries_spec hfiles List.nodup_nil
    have hof (e : Entry) (he : e ∈ files) : e.2 ∈ paths ∧ mustNormalizePath e.2 = .ok e.1 :=
      (hmem e he).resolve_left List.not_mem_nil
    refine (List.pairwise_map.mp hnodup).imp_of_mem fun {e e'} he he' hne heq => hne ?_
    obtain ⟨hp, hn⟩ := hof e he
    obtain ⟨hp', hn'⟩ := hof e' he'
    exact hunique e.2 hp e'.2 hp' e.1 e'.1 hn hn' heq

/-- The path `a/././b`, whose name is `a/./b`. -/
theorem not_canonical : ¬Canonical [text "a/././b"] := by
  intro h
  have hn := h.normal _ (List.mem_singleton_self _) (text "a/./b")
    (mustNormalizePath_eq_ok.mpr ⟨by decide +kernel, by decide +kernel⟩)
  exact absurd hn.undotted (by decide +kernel)

/-! ## Contained names -/

theorem filter_undotted (path : List Byte) :
    (undotted path).filter (fun c => c ≠ [dot]) = (components path).filter (fun c => c ≠ [dot]) := by
  obtain ⟨cs, c, h⟩ := List.eq_nil_or_concat (components path) |>.resolve_left (components_ne_nil path)
  rw [undotted, h, List.concat_eq_append, List.dropLast_concat, List.getLast?_concat]
  simp only [List.filter_append, List.filter_filter, Bool.and_self, Option.toList_some]

/-- Whether a path climbs does not depend on its `.` components. -/
theorem stays_of_undotted {p q : List Byte} (h : undotted p = undotted q) (d : Nat) :
    Move.Stays d (moves p) ↔ Move.Stays d (moves q) := by
  have hmoves (cs : List (List Byte)) : (cs.map moveOf).filter (· ≠ .stay) =
      ((cs.filter (fun c => c ≠ [dot])).map moveOf).filter (· ≠ .stay) := by
    induction cs with
    | nil => rfl
    | cons c cs ih =>
      by_cases hc : c = [dot]
      · rw [List.filter_cons_of_neg (by simpa using hc), ← ih, List.map_cons, List.filter_cons_of_neg]
        simp [moveOf, hc]
      · rw [List.filter_cons_of_pos (by simpa using hc), List.map_cons, List.map_cons,
          List.filter_cons, List.filter_cons, ih]
  refine Move.stays_congr ?_ d
  rw [moves, moves, hmoves, hmoves (components q), ← filter_undotted, ← filter_undotted q, h]

theorem head_removeInner (b : Byte) (q : List Byte) : ∃ r, removeInner (b :: q) = b :: r := by
  match q with
  | [] => exact ⟨[], rfl⟩
  | [c] => exact ⟨[c], rfl⟩
  | c :: d :: q =>
    rw [removeInner]
    split
    · exact ⟨_, by rw [(‹_ ∧ _› : b = slash ∧ _).1]⟩
    · exact ⟨_, rfl⟩

/-- The check looks at two characters, which are kept. -/
theorem isIdealPath_removeInner (q : List Byte) : isIdealPath (removeInner q) = isIdealPath q := by
  match q with
  | [] => rfl
  | [a] => rfl
  | [a, b] => rfl
  | a :: b :: c :: q =>
    rw [removeInner]
    split
    · obtain ⟨rfl, -, -⟩ := (‹_ ∧ _› : a = slash ∧ _)
      simp [isIdealPath]
    · obtain ⟨r, hr⟩ := head_removeInner b (c :: q)
      rw [hr]
      rfl

theorem isIdealPath_normalize {path : List Byte} (h : isIdealPath path = true) :
    isIdealPath (normalizeRelativePath path) = true ↔
      ∀ rest, path = dot :: slash :: rest → isIdealPath rest = true := by
  rw [normalizeRelativePath, isIdealPath_removeInner]
  unfold removeLeading
  split
  · rename_i a b rest
    split
    · obtain ⟨rfl, rfl⟩ := (‹_ ∧ _› : a = dot ∧ b = slash)
      exact ⟨fun h rest' heq => by cases heq; exact h, fun h => h rest rfl⟩
    · exact iff_of_true h fun rest' heq => absurd (by cases heq; exact ⟨rfl, rfl⟩) ‹¬(a = dot ∧ b = slash)›
  · rename_i hshort
    exact iff_of_true h fun rest heq => absurd heq (hshort dot slash rest)

/-- The name of a path is contained exactly where the path is rejected, or its `..` do not
climb and it would also be accepted without the `./` in front of it, if there is one. -/
theorem contained_iff (path : List Byte) : Contained path ↔
    (isIdealPath path = true → Move.Stays 0 (moves path) ∧
      ∀ rest, path = dot :: slash :: rest → isIdealPath rest = true) := by
  have hname (hideal : isIdealPath path = true) :
      Move.Stays 0 (moves (normalizeRelativePath path)) ∧
          isIdealPath (normalizeRelativePath path) = true ↔
        Move.Stays 0 (moves path) ∧ ∀ rest, path = dot :: slash :: rest → isIdealPath rest = true :=
    and_congr (stays_of_undotted (undotted_normalize path) 0) (isIdealPath_normalize hideal)
  constructor
  · exact fun h hideal => (hname hideal).mp (h _ (mustNormalizePath_eq_ok.mpr ⟨hideal, rfl⟩))
  · intro h name hn
    obtain ⟨hideal, rfl⟩ := mustNormalizePath_eq_ok.mp hn
    exact (hname hideal).mpr (h hideal)

/-- The path `a/../../x`, which is its own name. -/
theorem not_contained : ¬Contained (text "a/../../x") := by
  intro h
  have hn := h (text "a/../../x") (mustNormalizePath_eq_ok.mpr ⟨by decide +kernel, by decide +kernel⟩)
  exact absurd ((Move.stays_iff ..).mp hn.1) (by decide +kernel)

end CkbJs.Proof.FsLua
