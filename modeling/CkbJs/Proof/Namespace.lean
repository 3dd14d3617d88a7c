import CkbJs.Proof.Link
import CkbJs.Proof.Sort.Array
import CkbJs.Spec.Namespace

/-!
# A module namespace has the names that stand for one binding

`get_exported_names` goes through the modules that star exports lead to, each
of them once (`Collects`), and its list has the exported names, once each
(`exports_iff`). An entry of the list that is kept for the fast case is the one
that the resolution would find (`Kept`).
-/

namespace CkbJs.Proof.Namespace

open CkbJs.Impl.Bytecode CkbJs.Impl.Link CkbJs.Impl.Namespace CkbJs.Spec.Link CkbJs.Spec.Namespace CkbJs.Explore
open CkbJs.Proof.Link (wp_deref request_lt)

variable {mods : List LoadedModule} {m m1 fuel : Nat} {name : JSAtom} {d : LoadedModule} {fromStar : Bool}
  {names : List ExportedNameEntry} {me : JSExportEntry}

/-! ## The list of the names -/

/-- The names of the list. -/
def listed (names : List ExportedNameEntry) : List JSAtom := names.map ExportedNameEntry.exportName

theorem findExportedName_eq_none : findExportedName names name = none ↔ name ∉ listed names := by
  simp [findExportedName, listed, List.findIdx?_eq_none_iff]

theorem listed_modify (j : Nat) : listed (names.modify j fun en => { en with me := none }) = listed names := by
  refine List.ext_getElem (by simp [listed]) fun i h1 h2 => ?_
  simp only [listed, List.getElem_map, List.getElem_modify]
  split
  · rfl
  · rfl

theorem listed_addExportedName (fromStar : Bool) (names : List ExportedNameEntry) (me : JSExportEntry) :
    listed (addExportedName fromStar names me) =
      if (fromStar ∧ me.exportName = JS_ATOM_default) ∨ me.exportName ∈ listed names then listed names
      else listed names ++ [me.exportName] := by
  unfold addExportedName
  split
  · rename_i h
    rw [if_pos (.inl h)]
  · rename_i h
    cases hfind : findExportedName names me.exportName with
    | none =>
      rw [if_neg (not_or.2 ⟨h, findExportedName_eq_none.1 hfind⟩)]
      simp [listed]
    | some j =>
      have hmem : me.exportName ∈ listed names := by
        by_contra hn
        rw [findExportedName_eq_none.2 hn] at hfind
        exact absurd hfind.symm (Option.some_ne_none j)
      exact (listed_modify j).trans (if_pos (.inr hmem)).symm

theorem mem_addExportedName : name ∈ listed (addExportedName fromStar names me) ↔
    name ∈ listed names ∨ name = me.exportName ∧ ¬(fromStar ∧ name = JS_ATOM_default) := by
  rw [listed_addExportedName]
  split
  · rename_i h
    refine ⟨.inl, fun hn => hn.elim id fun ⟨heq, hd⟩ => ?_⟩
    rw [heq] at hd ⊢
    exact h.resolve_left hd
  · rename_i h
    rw [List.mem_append, List.mem_singleton]
    refine or_congr_right ⟨fun heq => ⟨heq, fun hd => h (.inl (heq ▸ hd))⟩, And.left⟩

theorem nodup_addExportedName (h : (listed names).Nodup) : (listed (addExportedName fromStar names me)).Nodup := by
  rw [listed_addExportedName]
  split
  · exact h
  · rename_i hn
    exact List.nodup_append.2 ⟨h, List.nodup_singleton _, fun a ha b hb => by
      rintro rfl
      exact hn (.inr (List.mem_singleton.1 hb ▸ ha))⟩

/-- All entries of a module. -/
theorem mem_foldl (entries : List JSExportEntry) : name ∈ listed (entries.foldl (addExportedName fromStar) names) ↔
    name ∈ listed names ∨ (∃ me ∈ entries, me.exportName = name) ∧ ¬(fromStar ∧ name = JS_ATOM_default) := by
  induction entries generalizing names with
  | nil => simp
  | cons me entries ih =>
    rw [List.foldl_cons, ih, mem_addExportedName, List.exists_mem_cons_iff, eq_comm]
    tauto

theorem nodup_foldl (entries : List JSExportEntry) (h : (listed names).Nodup) :
    (listed (entries.foldl (addExportedName fromStar) names)).Nodup := by
  induction entries generalizing names with
  | nil => exact h
  | cons me entries ih => exact ih (nodup_addExportedName h)

/-! ## The fast case -/

/-- An entry that is kept is a local one, and the one that is found among
`entries` under its name. -/
def Kept (entries : List JSExportEntry) (names : List ExportedNameEntry) : Prop :=
  ∀ en ∈ names, ∀ me, en.me = some me → me.exportType = JS_EXPORT_TYPE_LOCAL ∧
    (entries.find? fun me => me.exportName = en.exportName) = some me

theorem kept_modify {entries : List JSExportEntry} (h : Kept entries names) (j : Nat) :
    Kept entries (names.modify j fun en => { en with me := none }) := by
  intro en hen me hme
  obtain ⟨i, hi⟩ := List.mem_iff_getElem?.1 hen
  rw [List.getElem?_modify] at hi
  obtain ⟨en', hen', heq⟩ := Option.map_eq_some_iff.1 hi
  split at heq
  · rw [← heq] at hme
    exact absurd hme.symm (Option.some_ne_none me)
  · rw [← heq] at hme ⊢
    exact h en' (List.mem_of_getElem? hen') me hme

theorem kept_star {entries : List JSExportEntry} (h : Kept entries names) (more : List JSExportEntry) :
    Kept entries (more.foldl (addExportedName true) names) := by
  induction more generalizing names with
  | nil => exact h
  | cons me more ih =>
    refine ih ?_
    unfold addExportedName
    split
    · exact h
    · split
      · intro en hen me' hme
        rcases List.mem_append.1 hen with hen | hen
        · exact h en hen me' hme
        · rw [List.mem_singleton.1 hen] at hme
          exact absurd hme.symm (Option.some_ne_none me')
      · exact kept_modify h _

theorem Kept.grow {entries : List JSExportEntry} (h : Kept entries names) (me : JSExportEntry) :
    Kept (entries ++ [me]) names := by
  intro en hen me' hme
  obtain ⟨hlocal, hfind⟩ := h en hen me' hme
  refine ⟨hlocal, ?_⟩
  rw [List.find?_append, hfind]
  rfl

/-- The entries of the module itself. -/
theorem kept_own (entries more : List JSExportEntry) (hall : ∀ me ∈ entries, me.exportName ∈ listed names)
    (h : Kept entries names) : Kept (entries ++ more) (more.foldl (addExportedName false) names) := by
  induction more generalizing entries names with
  | nil => rwa [List.append_nil]
  | cons me more ih =>
    rw [List.append_cons, List.foldl_cons]
    refine ih _ (fun me' hme' => mem_addExportedName.2 ?_) ?_
    · rcases List.mem_append.1 hme' with hme' | hme'
      · exact .inl (hall me' hme')
      · rw [List.mem_singleton.1 hme']
        exact .inr ⟨rfl, fun hf => Bool.false_ne_true hf.1⟩
    · unfold addExportedName
      rw [if_neg fun hf => Bool.false_ne_true hf.1]
      cases hfind : findExportedName names me.exportName with
      | some j => exact kept_modify (h.grow me) j
      | none =>
        intro en hen me' hme
        rcases List.mem_append.1 hen with hen | hen
        · exact (h.grow me) en hen me' hme
        rw [List.mem_singleton.1 hen] at hme ⊢
        dsimp only at hme ⊢
        split at hme
        · exact absurd hme.symm (Option.some_ne_none me')
        · rename_i hlocal
          injection hme with hme
          rw [not_or, not_not] at hlocal
          refine ⟨hme ▸ hlocal.2, ?_⟩
          -- no entry before this one has the name
          have hnone : (entries.find? fun me1 => me1.exportName = me.exportName) = none := by
            rw [List.find?_eq_none]
            intro me1 hme1 heq
            exact findExportedName_eq_none.1 hfind (of_decide_eq_true heq ▸ hall me1 hme1)
          rw [List.find?_append, hnone, ← hme]
          simp

/-! ## The search -/

/-- The modules of star exports. -/
def requests (d : LoadedModule) (stars : List Int32) : List Nat := stars.flatMap fun se => (d.request se).toList

theorem requests_cons {se : Int32} (hr : d.request se = some m1) (stars : List Int32) :
    requests d (se :: stars) = m1 :: requests d stars := by
  simp [requests, hr]

theorem mem_requests {stars : List Int32} : m1 ∈ requests d stars ↔ ∃ se ∈ stars, d.request se = some m1 := by
  simp [requests]

def starNext (mods : List LoadedModule) (m : Nat) : List Nat :=
  match mods[m]? with
  | none => []
  | some d => requests d d.entries.starExportEntries

theorem starNext_eq (hd : mods[m]? = some d) : starNext mods m = requests d d.entries.starExportEntries := by
  simp only [starNext, hd]

/-- The module has an entry of this name. -/
def Owns (mods : List LoadedModule) (m : Nat) (name : JSAtom) : Prop :=
  ∃ d, mods[m]? = some d ∧ ∃ me ∈ d.entries.exportEntries, me.exportName = name

theorem owns_iff (hd : mods[m]? = some d) :
    Owns mods m name ↔ ∃ me ∈ d.entries.exportEntries, me.exportName = name := by
  unfold Owns
  simp only [hd, Option.some.injEq, exists_eq_left']

/-- What a search from star exports adds to the list. -/
structure Collects (mods : List LoadedModule) (roots : List Nat) (s s' : GetExportNamesState) : Prop where
  explored : Explored (starNext mods) roots s.modules s'.modules
  names : ∀ name, name ∈ listed s'.exportedNames ↔ name ∈ listed s.exportedNames ∨
    name ≠ JS_ATOM_default ∧ ∃ u ∈ s'.modules, u ∉ s.modules ∧ Owns mods u name
  nodup : (listed s.exportedNames).Nodup → (listed s'.exportedNames).Nodup
  kept : ∀ entries, Kept entries s.exportedNames → Kept entries s'.exportedNames

namespace Collects

variable {s s1 s2 s' : GetExportNamesState} {roots : List Nat}

theorem of_eq (h : Explored (starNext mods) roots s.modules s.modules) : Collects mods roots s s where
  explored := h
  names _ := ⟨.inl, fun hn => hn.elim id fun ⟨_, _, hu, hn, _⟩ => absurd hu hn⟩
  nodup h := h
  kept _ h := h

theorem cons (h : Collects mods [m] s s1) (h' : Collects mods roots s1 s2) : Collects mods (m :: roots) s s2 where
  explored := h.explored.cons h'.explored
  names name := by
    rw [h'.names, h.names]
    constructor
    · rintro ((hn | ⟨hd, u, hu, hn, ho⟩) | ⟨hd, u, hu, hn, ho⟩)
      · exact .inl hn
      · exact .inr ⟨hd, u, h'.explored.mono u hu, hn, ho⟩
      · exact .inr ⟨hd, u, hu, fun hs => hn (h.explored.mono u hs), ho⟩
    · rintro (hn | ⟨hd, u, hu, hn, ho⟩)
      · exact .inl (.inl hn)
      · by_cases hu1 : u ∈ s1.modules
        · exact .inl (.inr ⟨hd, u, hu1, hn, ho⟩)
        · exact .inr ⟨hd, u, hu, hu1, ho⟩
  nodup hs := h'.nodup (h.nodup hs)
  kept entries hs := h'.kept entries (h.kept entries hs)

/-- A module that is entered from a star export. -/
theorem visit (hd : mods[m]? = some d) (hm : m ∉ s.modules)
    (h : Collects mods (starNext mods m)
      ⟨s.modules ++ [m], d.entries.exportEntries.foldl (addExportedName true) s.exportedNames⟩ s') :
    Collects mods [m] s s' where
  explored := h.explored.visit
  names name := by
    rw [h.names, mem_foldl]
    have hmem : m ∈ s'.modules := h.explored.mono m (List.mem_append_right _ (List.mem_singleton_self m))
    constructor
    · rintro ((hn | ⟨ho, hnd⟩) | ⟨hnd, u, hu, hn, ho⟩)
      · exact .inl hn
      · exact .inr ⟨fun heq => hnd ⟨rfl, heq⟩, m, hmem, hm, d, hd, ho⟩
      · exact .inr ⟨hnd, u, hu, fun hs => hn (List.mem_append_left _ hs), ho⟩
    · rintro (hn | ⟨hnd, u, hu, hn, ho⟩)
      · exact .inl (.inl hn)
      · by_cases hum : u = m
        · exact .inl (.inr ⟨(owns_iff hd).1 (hum ▸ ho), fun hs => hnd hs.2⟩)
        · refine .inr ⟨hnd, u, hu, fun hs => ?_, ho⟩
          exact (List.mem_append.1 hs).elim hn fun h => hum (List.mem_singleton.1 h)
  nodup hs := h.nodup (nodup_foldl _ hs)
  kept entries hs := h.kept entries (kept_star hs _)

end Collects

theorem wp_visitStars {visit : Nat → NamesM Unit} {U : List Nat}
    (hvisit : ∀ m1, m1 < mods.length → ∀ s, unseen U s.modules < fuel →
      WP (visit m1) s (fun _ s' => Collects mods [m1] s s') fun _ _ => False)
    {stars : List Int32} (hin : ∀ se ∈ stars, ∃ m1, d.request se = some m1 ∧ m1 < mods.length)
    {s : GetExportNamesState} (hfuel : unseen U s.modules < fuel) :
    WP (visitStars visit d stars) s (fun _ s' => Collects mods (requests d stars) s s') fun _ _ => False := by
  induction stars generalizing s with
  | nil => exact WP.of_pure (.of_eq (.nil _ _))
  | cons se stars ih =>
    obtain ⟨m1, hr, hm1⟩ := hin se List.mem_cons_self
    rw [requests_cons hr]
    refine WP.bind (wp_deref hr (WP.seq (hvisit m1 hm1 s hfuel) (fun _ _ h => h) fun _ s1 h1 => ?_))
    have hfuel1 := Nat.lt_of_le_of_lt (unseen_le h1.explored.mono) hfuel
    exact (ih (fun se' h => hin se' (List.mem_cons_of_mem se h)) hfuel1).mono (fun _ _ h => h1.cons h) fun _ _ h => h

/-- The search below the star exports of a module. -/
theorem wp_stars (hl : Connected mods) (fuel : Nat) {d : LoadedModule} (hd : mods[m]? = some d)
    (s : GetExportNamesState) (hfuel : unseen (List.range mods.length) s.modules < fuel) :
    WP (visitStars (fun m1 => getExportedNames mods fuel m1 true) d d.entries.starExportEntries) s
      (fun _ s' => Collects mods (starNext mods m) s s') fun _ _ => False := by
  induction fuel generalizing m d s with
  | zero => omega
  | succ fuel ih =>
    rw [starNext_eq hd]
    refine wp_visitStars (fun m1 hm1 s1 hs1 => ?_) (fun se hse => ?_) hfuel
    · refine WP.bind (WP.of_get (WP.ite (fun hseen => WP.of_pure (.of_eq (.seen _ hseen))) fun hnew => ?_))
      obtain ⟨d1, hd1⟩ : ∃ d1, mods[m1]? = some d1 := ⟨mods[m1], List.getElem?_eq_getElem hm1⟩
      have hlt : unseen (List.range mods.length) (s1.modules ++ [m1]) < fuel :=
        Nat.lt_of_lt_of_le (unseen_lt (List.mem_range.2 hm1) hnew) (Nat.le_of_lt_succ hs1)
      refine WP.bind (wp_deref hd1 (WP.bind (WP.of_set ?_)))
      exact (ih hd1 _ hlt).mono (fun _ _ h => .visit hd1 hnew h) fun _ _ h => h
    · obtain ⟨m1, hr⟩ := Option.isSome_iff_exists.1 (hl.stars d (List.mem_of_getElem? hd) se hse)
      exact ⟨m1, hr, request_lt hl hd hr⟩

/-- Every module that is reached exports to the one that the search is for. -/
theorem exports_of_reach {u : Nat} (h : Heap.Reach (starNext mods) [m] u) (hname : name ≠ JS_ATOM_default)
    (hu : Exports mods u name) : Exports mods m name := by
  induction h with
  | root hr => exact List.mem_singleton.1 hr ▸ hu
  | @child p q _ hp ih =>
    refine ih ?_
    unfold starNext at hp
    split at hp
    · exact absurd hp List.not_mem_nil
    · rename_i d hd
      obtain ⟨se, hse, hr⟩ := mem_requests.1 hp
      exact .star hd hse hr hname hu

/-- In a part of the graph that is closed, what a module exports is owned. -/
theorem owns_of_exports {s : List Nat} (hclosed : ∀ u ∈ s, ∀ c ∈ starNext mods u, c ∈ s) (h : Exports mods m name)
    (hm : m ∈ s) : ∃ u ∈ s, Owns mods u name := by
  induction h with
  | own hd hme => exact ⟨_, hm, _, hd, _, hme, rfl⟩
  | star hd hse hr _ _ ih =>
    refine ih (hclosed _ hm _ ?_)
    rw [starNext_eq hd]
    exact mem_requests.2 ⟨_, hse, hr⟩

/-- The names that the search comes to are the exported ones. -/
theorem exports_iff (hd : mods[m]? = some d) {s' : List Nat} (h : Explored (starNext mods) [m] [] s') :
    (name ∈ listed [] ∨ (∃ me ∈ d.entries.exportEntries, me.exportName = name) ∧
      ¬(false = true ∧ name = JS_ATOM_default)) ∨
      (name ≠ JS_ATOM_default ∧ ∃ u ∈ s', u ∉ [m] ∧ Owns mods u name) ↔ Exports mods m name := by
  have hm : m ∈ s' := h.roots m (List.mem_singleton_self m)
  constructor
  · rintro ((hn | ⟨⟨me, hme, rfl⟩, _⟩) | ⟨hname, u, hu, _, d', hd', me, hme, rfl⟩)
    · exact absurd hn List.not_mem_nil
    · exact .own hd hme
    · exact exports_of_reach (h.reach u hu List.not_mem_nil) hname (.own hd' hme)
  · intro hex
    have hfrom (hname : name ≠ JS_ATOM_default) : (∃ me ∈ d.entries.exportEntries, me.exportName = name) ∨
        ∃ u ∈ s', u ∉ [m] ∧ Owns mods u name := by
      obtain ⟨u, hu, ho⟩ := owns_of_exports h.closed_nil hex hm
      by_cases hum : u = m
      · exact .inl ((owns_iff hd).1 (hum ▸ ho))
      · exact .inr ⟨u, hu, fun h => hum (List.mem_singleton.1 h), ho⟩
    have hown (ho : ∃ me ∈ d.entries.exportEntries, me.exportName = name) := Or.inr (a := name ∈ listed [])
      (And.intro ho fun h : false = true ∧ name = JS_ATOM_default => Bool.false_ne_true h.1)
    cases hex with
    | own hd' hme => exact .inl (hown ((owns_iff hd).1 ⟨_, hd', _, hme, rfl⟩))
    | star _ _ _ hname _ => exact (hfrom hname).imp hown fun h => ⟨hname, h⟩

/-- What `get_exported_names` leaves for a module. -/
theorem wp_getExportedNames (hl : Connected mods) (hd : mods[m]? = some d) (hfuel : mods.length < fuel) :
    WP (getExportedNames mods fuel m false) ⟨[], []⟩
      (fun _ s' => (∀ name, name ∈ listed s'.exportedNames ↔ Exports mods m name) ∧
        (listed s'.exportedNames).Nodup ∧ Kept d.entries.exportEntries s'.exportedNames) fun _ _ => False := by
  obtain ⟨fuel, rfl⟩ : ∃ n, fuel = n + 1 := ⟨fuel - 1, by omega⟩
  refine WP.bind (WP.of_get (WP.ite (fun h => absurd h List.not_mem_nil) fun _ => ?_))
  have hm : m < mods.length := (List.getElem?_eq_some_iff.1 hd).1
  have hunseen : unseen (List.range mods.length) [m] < fuel := by
    have hlt := unseen_lt (List.mem_range.2 hm) (List.not_mem_nil (a := m))
    have hle : unseen (List.range mods.length) [] ≤ mods.length :=
      Nat.le_trans (List.length_filter_le _ _) (Nat.le_of_eq List.length_range)
    rw [List.nil_append] at hlt
    omega
  refine WP.bind (wp_deref hd (WP.bind (WP.of_set ?_)))
  refine (wp_stars hl fuel hd _ hunseen).mono (fun _ s' h => ⟨fun name => ?_, ?_, ?_⟩) fun _ _ h => h
  · rw [h.names, mem_foldl]
    exact exports_iff hd h.explored.visit
  · exact h.nodup (nodup_foldl _ List.nodup_nil)
  · refine h.kept _ ?_
    exact kept_own [] _ (fun _ h => absurd h List.not_mem_nil) fun _ h => absurd h List.not_mem_nil

/-! ## The resolution of the names -/

/-- What is left of a name: what it refers to, or that it is ambiguous. -/
def Resolved (mods : List LoadedModule) (m : Nat) (name : JSAtom) : Option NsValue → Prop
  | some v => ∃ m' e, Resolves mods m name (.found m' e) ∧ Refers mods m' e v
  | none => Resolves mods m name .ambiguous

/-- A binding is an entry of its module. -/
theorem entry_of_provides {m' : Nat} {e : JSExportEntry} (h : Provides mods m name m' e) :
    ∃ d', mods[m']? = some d' ∧ e ∈ d'.entries.exportEntries := by
  induction h with
  | own hd hfind _ => exact ⟨_, hd, List.mem_of_find?_eq_some hfind⟩
  | indirect _ _ _ _ _ ih => exact ih
  | star _ _ _ _ _ _ ih => exact ih

theorem refer_spec (hl : Connected mods) (hn : LocalNames mods) {m' : Nat} {e : JSExportEntry}
    (h : Provides mods m name m' e) : ∃ v, refer mods m' e = .ok v ∧ Refers mods m' e v := by
  obtain ⟨d', hd', he⟩ := entry_of_provides h
  have hmem : d' ∈ mods := List.mem_of_getElem? hd'
  unfold refer
  split
  · rename_i hstar
    obtain ⟨m1, hr⟩ := Option.isSome_iff_exists.1 (hl.exports d' hmem e he fun hlocal => hn d' hmem e he hlocal hstar)
    rw [hd', Option.bind_some, hr]
    exact ⟨.ns m1, rfl, hstar, d', hd', hr⟩
  · rename_i hstar
    exact ⟨.varRef m' e, rfl, hstar, rfl, rfl⟩

theorem settle_spec (hl : Connected mods) (hn : LocalNames mods) {res : Resolve} (h : Resolves mods m name res) :
    (∃ v, settle mods name res = .ok v ∧ Resolved mods m name v) ∨
      ∃ res', settle mods name res = .error (.syntaxError res' name) ∧ ∀ m' e, ¬Provides mods m name m' e := by
  cases res with
  | found m' e =>
    obtain ⟨v, hv, hrefers⟩ := refer_spec hl hn h.1
    refine .inl ⟨some v, ?_, m', e, h, hrefers⟩
    simp only [settle, hv]
    rfl
  | ambiguous => exact .inl ⟨none, rfl, h⟩
  | notFound => exact .inr ⟨.notFound, rfl, h⟩
  | circular => exact .inr ⟨.circular, rfl, h⟩

/-- An own local entry is all that its name stands for. -/
theorem resolves_own (hd : mods[m]? = some d) (hfind : d.findExportEntry name = some me)
    (hlocal : me.exportType = JS_EXPORT_TYPE_LOCAL) : Resolves mods m name (.found m me) := by
  have hown {d' : LoadedModule} (hd' : mods[m]? = some d') : d'.findExportEntry name = some me :=
    Option.some.inj (hd.symm.trans hd') ▸ hfind
  refine ⟨.own hd hfind (.inl hlocal), fun m'' e' h => ?_⟩
  cases h with
  | own hd' hfind' _ =>
    rw [Option.some.inj ((hown hd').symm.trans hfind')]
    exact Link.same_refl _
  | indirect hd' hfind' hends _ _ =>
    exact absurd (.inl (Option.some.inj ((hown hd').symm.trans hfind') ▸ hlocal)) hends
  | star hd' hfind' _ _ _ _ => exact absurd ((hown hd').symm.trans hfind') (Option.some_ne_none me)

/-- With enough memory, resolution has a result. -/
theorem exists_resolveExport (hl : Connected mods) (hm : m < mods.length) (name : JSAtom)
    (hfuel : (reachable mods name).length < fuel) :
    ∃ r s, resolveExport (fun _ => true) mods fuel m name = .ok r s ∧ Resolves mods m name r := by
  have hwp : WP (resolveExport1 (fun _ => true) mods fuel m name) [] _ _ := Link.wp_resolveExport hl hm name hfuel
  exact (hwp.mono (fun _ _ h => h) fun _ _ h => Bool.false_ne_true h.2.symm).exists_ok

theorem resolveName_spec (hl : Connected mods) (hn : LocalNames mods) (hd : mods[m]? = some d)
    {en : ExportedNameEntry} (hfuel : (reachable mods en.exportName).length < fuel)
    (hkept : ∀ me, en.me = some me → me.exportType = JS_EXPORT_TYPE_LOCAL ∧
      d.findExportEntry en.exportName = some me) :
    (∃ v, resolveName mods fuel m en = .ok v ∧ Resolved mods m en.exportName v) ∨
      ∃ res, resolveName mods fuel m en = .error (.syntaxError res en.exportName) ∧
        ∀ m' e, ¬Provides mods m en.exportName m' e := by
  unfold resolveName
  cases hme : en.me with
  | some me => exact settle_spec hl hn (resolves_own hd (hkept me hme).2 (hkept me hme).1)
  | none =>
    obtain ⟨r, s, hrun, h⟩ := exists_resolveExport hl (List.getElem?_eq_some_iff.1 hd).1 en.exportName hfuel
    simp only [hrun]
    exact settle_spec hl hn h

theorem resolveNames_spec (hl : Connected mods) (hn : LocalNames mods) (hd : mods[m]? = some d)
    (hfuel : ∀ name, (reachable mods name).length < fuel) (hkept : Kept d.entries.exportEntries names) :
    (∃ l, resolveNames mods fuel m names = .ok l ∧ l.map Prod.fst = listed names ∧
      ∀ en ∈ l, Resolved mods m en.1 en.2) ∨
      ∃ res name, resolveNames mods fuel m names = .error (.syntaxError res name) ∧ name ∈ listed names ∧
        ∀ m' e, ¬Provides mods m name m' e := by
  induction names with
  | nil => exact .inl ⟨[], rfl, rfl, fun _ h => absurd h List.not_mem_nil⟩
  | cons en names ih =>
    unfold resolveNames
    obtain ⟨v, hv, hres⟩ | ⟨res, herr, hnone⟩ :=
      resolveName_spec hl hn hd (hfuel en.exportName) (hkept en List.mem_cons_self)
    · rw [hv]
      obtain ⟨l, hl', hmap, hall⟩ | ⟨res, name, herr, hname, hnone⟩ :=
        ih fun en' h => hkept en' (List.mem_cons_of_mem en h)
      · refine .inl ⟨(en.exportName, v) :: l, ?_, congrArg (en.exportName :: ·) hmap,
          List.forall_mem_cons.2 ⟨hres, hall⟩⟩
        rw [hl']
        rfl
      · refine .inr ⟨res, name, ?_, List.mem_cons_of_mem _ hname, hnone⟩
        rw [herr]
        rfl
    · refine .inr ⟨res, en.exportName, ?_, List.mem_cons_self, hnone⟩
      rw [herr]
      rfl

/-! ## The namespace -/

open CkbJs.Impl.ArraySort CkbJs.Spec.Sort

variable {text : JSAtom → List UInt16} {l : List (JSAtom × Option NsValue)}

theorem follows_exportedNamesCmp (text : JSAtom → List UInt16) :
    Follows (exportedNamesCmp text) (fun a b => stringCompare (text a.1) (text b.1) ≤ 0) fun _ => True where
  refl a := by
    have h := Sort.stringCompare_swap (text a.1) (text a.1)
    omega
  trans _ _ _ := Sort.stringCompare_trans
  good_of _ _ _ _ := trivial
  nonpos _ _ _ _ := Iff.rfl
  nonneg a b _ _ := by
    have h := Sort.stringCompare_swap (text a.1) (text b.1)
    simp only [exportedNamesCmp]
    omega

theorem sortExportedNames_spec (text : JSAtom → List UInt16) (l : List (JSAtom × Option NsValue)) :
    ∃ l', sortExportedNames text l = .ok l' ∧ l'.Perm l ∧
      l'.Pairwise fun a b => stringCompare (text a.1) (text b.1) ≤ 0 := by
  obtain ⟨⟨⟩, s, hrun, hmoves, hsorted⟩ :=
    (Sort.wp_rqsort (follows_exportedNamesCmp text) l.length ⟨fun i => l.getD i (0, none), ()⟩).exists_ok
  refine ⟨elements l.length s, ?_, ?_, (hsorted trivial).pairwise⟩
  · unfold sortExportedNames
    rw [hrun]
    rfl
  · have hperm := hmoves.shuffled.perm
    rwa [show (List.range l.length).map _ = l from Sort.elements_getD l (0, none) ()] at hperm

theorem property_eq_some {en : JSAtom × Option NsValue} {p : JSAtom × NsValue} :
    property en = some p ↔ en = (p.1, some p.2) := by
  obtain ⟨name, v⟩ := en
  obtain ⟨name', v'⟩ := p
  simp [property, Option.map_eq_some_iff, and_comm, Prod.ext_iff]

theorem sublist_properties (l : List (JSAtom × Option NsValue)) :
    List.Sublist ((l.filterMap property).map Prod.fst) (l.map Prod.fst) := by
  induction l with
  | nil => exact .slnil
  | cons en l ih =>
    cases h : property en with
    | none =>
      rw [List.filterMap_cons_none h]
      exact ih.cons _
    | some p =>
      rw [List.filterMap_cons_some h, property_eq_some.1 h]
      exact ih.cons_cons _

theorem mem_properties {v : NsValue} : (name, v) ∈ l.filterMap property ↔ (name, some v) ∈ l := by
  rw [List.mem_filterMap]
  refine ⟨fun ⟨en, hen, h⟩ => property_eq_some.1 h ▸ hen, fun h => ⟨_, h, rfl⟩⟩

/-- The properties that sorted entries give. -/
theorem isNamespace_of_sorted (hnames : ∀ name, name ∈ l.map Prod.fst ↔ Exports mods m name)
    (hnodup : (l.map Prod.fst).Nodup) (hres : ∀ en ∈ l, Resolved mods m en.1 en.2)
    (hsorted : l.Pairwise fun a b => stringCompare (text a.1) (text b.1) ≤ 0) :
    IsNamespace text mods m (l.filterMap property) where
  distinct := hnodup.sublist (sublist_properties l)
  sorted := by
    refine hsorted.filterMap property fun a b h p hp q hq => ?_
    rw [property_eq_some.1 hp, property_eq_some.1 hq] at h
    exact h
  provided name hex := by
    obtain ⟨⟨_, v⟩, hen, rfl⟩ := List.mem_map.1 ((hnames name).2 hex)
    cases v with
    | some v =>
      obtain ⟨m', e, h, _⟩ := hres _ hen
      exact ⟨m', e, h.1⟩
    | none =>
      obtain ⟨b, _, h, _⟩ := hres _ hen
      exact ⟨b.1, b.2, h⟩
  sound name v hv := by
    have hmem := mem_properties.1 hv
    exact ⟨(hnames name).1 (List.mem_map_of_mem hmem), hres _ hmem⟩
  complete name m' e hex h := by
    obtain ⟨⟨_, v⟩, hen, rfl⟩ := List.mem_map.1 ((hnames name).2 hex)
    cases v with
    | some v => exact ⟨v, mem_properties.2 hen⟩
    | none =>
      obtain ⟨b, b', hb, hb', hne⟩ := hres _ hen
      refine absurd ?_ hne
      have h1 := h.2 b.1 b.2 hb
      exact Link.same_trans ⟨h1.1.symm, h1.2.symm⟩ (h.2 b'.1 b'.2 hb')

/-- `js_build_module_ns` ends, whatever the modules export from each other. It
throws exactly if an exported name stands for nothing, and else the namespace
has a property for each exported name that stands for one binding. -/
theorem buildModuleNs_isNamespace (text : JSAtom → List UInt16) (fuel : Nat) (hl : Connected mods)
    (hn : LocalNames mods) (hm : m < mods.length)
    (hfuel : mods.length < fuel ∧ ∀ name, (reachable mods name).length < fuel) :
    (∃ props, buildModuleNs text mods fuel m = .ok props ∧ IsNamespace text mods m props) ∨
      ∃ res name, buildModuleNs text mods fuel m = .error (.syntaxError res name) ∧ Exports mods m name ∧
        ∀ m' e, ¬Provides mods m name m' e := by
  obtain ⟨d, hd⟩ : ∃ d, mods[m]? = some d := ⟨mods[m], List.getElem?_eq_getElem hm⟩
  obtain ⟨⟨⟩, s, hrun, hnames, hnodup, hkept⟩ := (wp_getExportedNames hl hd hfuel.1).exists_ok
  unfold buildModuleNs
  rw [hrun]
  dsimp only
  obtain ⟨l, hok, hmap, hres⟩ | ⟨res, name, herr, hname, hnone⟩ := resolveNames_spec hl hn hd hfuel.2 hkept
  · obtain ⟨l', hsort, hperm, hsorted⟩ := sortExportedNames_spec text l
    have hmap' := (hperm.map Prod.fst).trans (List.Perm.of_eq hmap)
    refine .inl ⟨l'.filterMap property, ?_, isNamespace_of_sorted (fun name => ?_) (hmap'.nodup_iff.2 hnodup)
      (fun en hen => hres en (hperm.mem_iff.1 hen)) hsorted⟩
    · rw [hok]
      simp only [bind, Except.bind, hsort]
      rfl
    · rw [hmap'.mem_iff]
      exact hnames name
  · refine .inr ⟨res, name, ?_, (hnames name).1 hname, hnone⟩
    rw [herr]
    rfl

theorem length_reachable (mods : List LoadedModule) (name : JSAtom) : (reachable mods name).length =
    mods.length * ((mods.flatMap fun d => d.entries.exportEntries.map JSExportEntry.localName).length + 1) := by
  refine (List.length_product (List.range mods.length) (Spec.Link.names mods name)).trans ?_
  rw [List.length_range]
  rfl

/-! The module 0 exports a variable and everything of 1 and of 2. The name 300
stands for one variable, which 2 exports from 1, and 302 for two of them. -/

def localEntry (name : JSAtom) : JSExportEntry := ⟨0, JS_EXPORT_TYPE_LOCAL, name, name⟩

def overlapping : List LoadedModule :=
  [⟨⟨1, [2, 3], [localEntry 301], [0, 1], []⟩, [1, 2]⟩, ⟨⟨2, [], [localEntry 300, localEntry 302], [], []⟩, []⟩,
    ⟨⟨3, [2], [⟨0, 1, 300, 300⟩, localEntry 302], [], []⟩, [1]⟩]

theorem connected_overlapping : Connected overlapping := by
  have hstars : overlapping.all (fun d => d.entries.starExportEntries.all fun se => (d.request se).isSome) = true := rfl
  exact ⟨by decide, by decide, fun d hd se hse => List.all_eq_true.1 (List.all_eq_true.1 hstars d hd) se hse⟩

/-- `b` and `a`. -/
def overlappingText (name : JSAtom) : List UInt16 := if name = 300 then [98] else if name = 301 then [97] else []

theorem buildModuleNs_isNamespace_overlapping :
    buildModuleNs overlappingText overlapping 20 0 =
      .ok [(301, .varRef 0 (localEntry 301)), (300, .varRef 1 (localEntry 300))] ∧
      IsNamespace overlappingText overlapping 0 [(301, .varRef 0 (localEntry 301)), (300, .varRef 1 (localEntry 300))] := by
  have hn : LocalNames overlapping := by
    unfold LocalNames
    decide
  have hfuel (name : JSAtom) : (reachable overlapping name).length < 20 := by
    rw [length_reachable]
    decide
  have hrun : buildModuleNs overlappingText overlapping 20 0 =
      .ok [(301, .varRef 0 (localEntry 301)), (300, .varRef 1 (localEntry 300))] := rfl
  refine ⟨hrun, ?_⟩
  obtain ⟨props, hok, h⟩ | ⟨res, name, herr, _⟩ :=
    buildModuleNs_isNamespace overlappingText 20 connected_overlapping hn (show 0 < 3 by decide) ⟨by decide, hfuel⟩
  · rw [hrun] at hok
    injection hok with hprops
    exact hprops ▸ h
  · rw [hrun] at herr
    cases herr

end CkbJs.Proof.Namespace
