import CkbJs.Framework.Explore
import CkbJs.Framework.WP
import CkbJs.Spec.Link

/-!
# Export resolution finds what a name stands for

The resolution is a search in the graph of the modules and names (`next`),
which enters each of them once, and a name stands for what the search can end
at (`ending_of_provides`). `Answers` is what a part of the search leaves: it
has explored the graph from its roots, and all that it ended at is one
binding, or the result is that there are two. Modules may refer to each other
in any way, and no module and name is entered twice (`resolveExport_resolves`).
-/

namespace CkbJs.Proof.Link

open CkbJs.Impl.Bytecode CkbJs.Impl.Link CkbJs.Spec.Link CkbJs.Explore

theorem same_refl (b : Nat × JSExportEntry) : Same b b := ⟨rfl, rfl⟩

theorem same_trans {b b' b'' : Nat × JSExportEntry} (h : Same b b') (h' : Same b' b'') : Same b b'' :=
  ⟨h.1.trans h'.1, h.2.trans h'.2⟩

variable {grows : Nat → Bool} {mods : List LoadedModule} {m m1 fuel : Nat} {name : JSAtom} {d : LoadedModule}
  {me : JSExportEntry}

theorem request_lt (h : Connected mods) (hd : mods[m]? = some d) {idx : Int32} (hr : d.request idx = some m1) :
    m1 < mods.length := by
  unfold LoadedModule.request at hr
  split at hr
  · exact h.required d (List.mem_of_getElem? hd) m1 (List.mem_of_getElem? hr)
  · exact absurd hr.symm (Option.some_ne_none m1)

/-! ## The graph of the modules and names -/

/-- The modules behind star exports, with the name. -/
def starRoots (d : LoadedModule) (name : JSAtom) (stars : List Int32) : List (Nat × JSAtom) :=
  stars.flatMap fun se => (d.request se).toList.map fun m1 => (m1, name)

theorem starRoots_cons {se : Int32} (hr : d.request se = some m1) (name : JSAtom) (stars : List Int32) :
    starRoots d name (se :: stars) = (m1, name) :: starRoots d name stars := by
  simp [starRoots, hr]

theorem mem_starRoots {se : Int32} {stars : List Int32} (hse : se ∈ stars) (hr : d.request se = some m1) :
    (m1, name) ∈ starRoots d name stars := by
  refine List.mem_flatMap.2 ⟨se, hse, ?_⟩
  simp [hr]

/-- Where the resolution of a name goes on. -/
def next (mods : List LoadedModule) (v : Nat × JSAtom) : List (Nat × JSAtom) :=
  match mods[v.1]? with
  | none => []
  | some d =>
    match d.findExportEntry v.2 with
    | some me => if Ends me then [] else (d.request me.idx).toList.map fun m1 => (m1, me.localName)
    | none => if v.2 = JS_ATOM_default then [] else starRoots d v.2 d.entries.starExportEntries

/-- Where it ends. -/
def ending (mods : List LoadedModule) (v : Nat × JSAtom) : Option JSExportEntry :=
  (mods[v.1]?.bind fun d => d.findExportEntry v.2).filter fun me => Ends me

section Cases

variable (hd : mods[m]? = some d)

include hd

theorem next_own (hfind : d.findExportEntry name = some me) (hends : Ends me) : next mods (m, name) = [] := by
  simp only [next, hd, hfind, if_pos hends]

theorem next_indirect (hfind : d.findExportEntry name = some me) (hends : ¬Ends me)
    (hr : d.request me.idx = some m1) : next mods (m, name) = [(m1, me.localName)] := by
  simp [next, hd, hfind, hends, hr]

theorem next_default (hfind : d.findExportEntry name = none) (hdefault : name = JS_ATOM_default) :
    next mods (m, name) = [] := by
  simp only [next, hd, hfind, if_pos hdefault]

theorem next_star (hfind : d.findExportEntry name = none) (hdefault : name ≠ JS_ATOM_default) :
    next mods (m, name) = starRoots d name d.entries.starExportEntries := by
  simp only [next, hd, hfind, if_neg hdefault]

theorem ending_own (hfind : d.findExportEntry name = some me) (hends : Ends me) :
    ending mods (m, name) = some me := by
  simp [ending, hd, hfind, hends]

theorem ending_indirect (hfind : d.findExportEntry name = some me) (hends : ¬Ends me) :
    ending mods (m, name) = none := by
  simp [ending, hd, hfind, hends]

theorem ending_star (hfind : d.findExportEntry name = none) : ending mods (m, name) = none := by
  simp [ending, hd, hfind]

end Cases

/-- What is provided is an ending in every closed part of the graph. -/
theorem ending_of_provides {s : List (Nat × JSAtom)} (hclosed : ∀ v ∈ s, ∀ u ∈ next mods v, u ∈ s) {m' : Nat}
    {e : JSExportEntry} (h : Provides mods m name m' e) (hv : (m, name) ∈ s) :
    ∃ u ∈ s, u.1 = m' ∧ ending mods u = some e := by
  induction h with
  | own hd hfind hends => exact ⟨_, hv, rfl, ending_own hd hfind hends⟩
  | indirect hd hfind hends hr _ ih =>
    refine ih (hclosed _ hv _ ?_)
    rw [next_indirect hd hfind hends hr]
    exact List.mem_singleton_self _
  | star hd hfind hdefault hse hr _ ih =>
    refine ih (hclosed _ hv _ ?_)
    rw [next_star hd hfind hdefault]
    exact mem_starRoots hse hr

/-! ## The search -/

/-- What a search from `roots` answers, when `acc` has been found before: `P` is
what may be found. -/
structure Answers (mods : List LoadedModule) (P : Nat × JSExportEntry → Prop) (roots : List (Nat × JSAtom))
    (acc : Option (Nat × JSExportEntry)) (s : List (Nat × JSAtom)) (r : Resolve) (s' : List (Nat × JSAtom)) :
    Prop where
  mono : ∀ q ∈ s, q ∈ s'
  conflict : r = .ambiguous → ∃ b b', P b ∧ P b' ∧ ¬Same b b'
  explored : r ≠ .ambiguous → Explored (next mods) roots s s'
  before : r ≠ .ambiguous → ∀ b, acc = some b → ∃ m me, r = .found m me ∧ Same (m, me) b
  agrees : r ≠ .ambiguous → ∀ u ∈ s', u ∉ s → ∀ e, ending mods u = some e →
    ∃ m me, r = .found m me ∧ Same (m, me) (u.1, e)
  provided : ∀ m me, r = .found m me → P (m, me)

namespace Answers

variable {P P1 : Nat × JSExportEntry → Prop} {roots : List (Nat × JSAtom)} {v : Nat × JSAtom}
  {acc acc' : Option (Nat × JSExportEntry)} {s s1 s2 s' : List (Nat × JSAtom)} {r r1 : Resolve}

theorem imp (h : Answers mods P1 roots acc s r s') (himp : ∀ b, P1 b → P b) : Answers mods P roots acc s r s' where
  mono := h.mono
  conflict hr := by
    obtain ⟨b, b', hb, hb', hne⟩ := h.conflict hr
    exact ⟨b, b', himp b hb, himp b' hb', hne⟩
  explored := h.explored
  before := h.before
  agrees := h.agrees
  provided m me hr := himp _ (h.provided m me hr)

/-- Two answers that differ. -/
theorem ofConflict (hmono : ∀ q ∈ s, q ∈ s') {b b' : Nat × JSExportEntry} (hb : P b) (hb' : P b')
    (hne : ¬Same b b') : Answers mods P roots acc s .ambiguous s' where
  mono := hmono
  conflict _ := ⟨b, b', hb, hb', hne⟩
  explored h := absurd rfl h
  before h := absurd rfl h
  agrees h := absurd rfl h
  provided _ _ h := Resolve.noConfusion h

/-- A root that has been searched, and then the others. -/
theorem cons (h1 : Answers mods P1 [v] none s r1 s1) (hr1 : r1 ≠ .ambiguous)
    (hacc : ∀ b, acc = some b → acc' = some b)
    (hfound : ∀ m me, r1 = .found m me → ∃ b, acc' = some b ∧ Same b (m, me))
    (h : Answers mods P roots acc' s1 r s2) : Answers mods P (v :: roots) acc s r s2 where
  mono q hq := h.mono q (h1.mono q hq)
  conflict := h.conflict
  explored hr := (h1.explored hr1).cons (h.explored hr)
  before hr b hb := h.before hr b (hacc b hb)
  agrees hr u hu hn e he := by
    by_cases hu1 : u ∈ s1
    · obtain ⟨m, me, hfind, hsame⟩ := h1.agrees hr1 u hu1 hn e he
      obtain ⟨b, hb, hsame'⟩ := hfound m me hfind
      obtain ⟨m', me', hr', hsame''⟩ := h.before hr b hb
      exact ⟨m', me', hr', same_trans (same_trans hsame'' hsame') hsame⟩
    · exact h.agrees hr u hu hu1 e he
  provided := h.provided

/-- A new vertex that is no ending, and then what it leads to. -/
theorem visit (hend : ending mods v = none) (h : Answers mods P (next mods v) none (s ++ [v]) r s') :
    Answers mods P [v] none s r s' where
  mono q hq := h.mono q (List.mem_append_left [v] hq)
  conflict := h.conflict
  explored hr := (h.explored hr).visit
  before := h.before
  agrees hr u hu hn e he := by
    refine h.agrees hr u hu (fun hmem => ?_) e he
    have huv : u = v := (List.mem_append.1 hmem).elim (fun h => absurd h hn) List.mem_singleton.1
    rw [huv, hend] at he
    exact absurd he.symm (Option.some_ne_none e)
  provided := h.provided

/-- A search that has come to its end, with what was found before. -/
theorem done (h : ∀ m me, r = .found m me ↔ acc = some (m, me)) (hne : r ≠ .ambiguous)
    (hP : ∀ b, acc = some b → P b) : Answers mods P [] acc s r s where
  mono _ h := h
  conflict hr := absurd hr hne
  explored _ := .nil _ s
  before _ b hb := ⟨b.1, b.2, (h _ _).2 hb, same_refl _⟩
  agrees _ _ hu hn := absurd hu hn
  provided m me hr := hP _ ((h m me).1 hr)

/-- A search that has come to its end without finding anything. -/
theorem nothing (mods : List LoadedModule) (P : Nat × JSExportEntry → Prop) (s : List (Nat × JSAtom)) :
    Answers mods P [] none s .notFound s :=
  .done (fun _ _ => ⟨Resolve.noConfusion, fun h => absurd h.symm (Option.some_ne_none _)⟩) Resolve.noConfusion
    fun _ hb => absurd hb.symm (Option.some_ne_none _)

/-- A vertex that was entered before. -/
theorem entered (h : v ∈ s) : Answers mods P [v] none s .circular s where
  mono _ hq := hq
  conflict hr := Resolve.noConfusion hr
  explored _ := .seen (next mods) h
  before _ b hb := absurd hb.symm (Option.some_ne_none b)
  agrees _ _ hu hn := absurd hu hn
  provided _ _ hr := Resolve.noConfusion hr

end Answers

/-- A new vertex that is an ending. -/
theorem Answers.found {P : Nat × JSExportEntry → Prop} {v : Nat × JSAtom} {s : List (Nat × JSAtom)}
    (hend : ending mods v = some me) (hnext : next mods v = []) (hP : P (v.1, me)) :
    Answers mods P [v] none s (.found v.1 me) (s ++ [v]) where
  mono _ hq := List.mem_append_left [v] hq
  conflict hr := Resolve.noConfusion hr
  explored _ := by
    refine .visit ?_
    rw [hnext]
    exact .nil _ _
  before _ _ hb := absurd hb.symm (Option.some_ne_none _)
  agrees _ u hu hn e he := by
    have huv : u = v := (List.mem_append.1 hu).elim (fun h => absurd h hn) List.mem_singleton.1
    rw [huv, hend] at he
    injection he with he
    exact ⟨v.1, me, rfl, by rw [huv], congrArg JSExportEntry.localName he⟩
  provided m' me' hr := by
    injection hr with hm hme
    rwa [← hm, ← hme]

/-- The array of the resolve state could not get another entry. -/
def OutOfMemory (grows : Nat → Bool) (e : Stop) (s : List (Nat × JSAtom)) : Prop :=
  e = .exception ∧ grows (s.length + 1) = false

theorem wp_deref {σ β : Type} {p : Option β} {x : β} (h : p = some x) {s : σ}
    {Q : β → σ → Prop} {R : Stop → σ → Prop} (hQ : Q x s) :
    WP (deref p) s Q R := by
  rw [h]
  exact WP.of_pure hQ

theorem wp_addResolveEntry {s : List (Nat × JSAtom)} {Q : Unit → List (Nat × JSAtom) → Prop}
    (hQ : Q () (s ++ [(m, name)])) : WP (addResolveEntry grows m name) s Q (OutOfMemory grows) := by
  refine WP.bind (WP.of_get (WP.ite (fun _ => WP.of_set hQ) fun hgrows => WP.of_throw ⟨rfl, ?_⟩))
  exact Bool.eq_false_of_not_eq_true hgrows

theorem mem_reachable {start : JSAtom} :
    (m, name) ∈ reachable mods start ↔ m < mods.length ∧ name ∈ names mods start := by
  rw [reachable, List.pair_mem_product, List.mem_range]

/-- The loop over the star exports. -/
theorem wp_resolveStars {U : List (Nat × JSAtom)} {P : Nat × JSExportEntry → Prop} {resolve : Nat → M Resolve}
    (hresolve : ∀ m1, m1 < mods.length → ∀ s, unseen U s < fuel → WP (resolve m1) s
      (Answers mods (fun b => Provides mods m1 name b.1 b.2) [(m1, name)] none s) (OutOfMemory grows))
    {stars : List Int32} (hin : ∀ se ∈ stars, ∃ m1, d.request se = some m1 ∧ m1 < mods.length ∧
      ∀ b : Nat × JSExportEntry, Provides mods m1 name b.1 b.2 → P b)
    {acc : Option (Nat × JSExportEntry)} (hacc : ∀ b, acc = some b → P b) {s : List (Nat × JSAtom)}
    (hfuel : unseen U s < fuel) :
    WP (resolveStars resolve d stars acc) s (Answers mods P (starRoots d name stars) acc s) (OutOfMemory grows) := by
  induction stars generalizing acc s with
  | nil =>
    cases acc with
    | none => exact WP.of_pure (.nothing mods P s)
    | some b =>
      refine WP.of_pure (.done (fun m me => ⟨fun h => ?_, fun h => ?_⟩) Resolve.noConfusion hacc)
      · injection h with h1 h2
        rw [← h1, ← h2]
      · injection h with h
        rw [h]
  | cons se stars ih =>
    obtain ⟨m1, hr, hm1, hP⟩ := hin se List.mem_cons_self
    have hin' := fun se' h => hin se' (List.mem_cons_of_mem se h)
    rw [starRoots_cons hr]
    refine WP.bind (wp_deref hr (WP.seq (hresolve m1 hm1 s hfuel) (fun _ _ h => h) fun r1 s1 h1 => ?_))
    have hfuel1 : unseen U s1 < fuel := Nat.lt_of_le_of_lt (unseen_le h1.mono) hfuel
    cases r1 with
    | ambiguous =>
      obtain ⟨b, b', hb, hb', hne⟩ := h1.conflict rfl
      exact WP.of_pure (.ofConflict h1.mono (hP b hb) (hP b' hb') hne)
    | found resM resMe =>
      have hprov := hP _ (h1.provided resM resMe rfl)
      cases acc with
      | none =>
        refine (ih hin' (fun b hb => ?_) hfuel1).mono (fun r s2 h => h1.cons Resolve.noConfusion
          (fun b hb => absurd hb.symm (Option.some_ne_none b)) (fun m me heq => ?_) h) fun _ _ h => h
        · injection hb with hb
          rwa [← hb]
        · injection heq with hm hme
          exact ⟨_, rfl, hm, hme ▸ rfl⟩
      | some b =>
        refine WP.ite (fun hne => ?_) fun hsame => ?_
        · refine WP.of_pure (.ofConflict h1.mono (hacc b rfl) hprov fun h => ?_)
          exact hne.elim (fun hm => hm h.1) fun hl => hl h.2.symm
        · refine (ih hin' hacc hfuel1).mono (fun r s2 h => h1.cons Resolve.noConfusion (fun _ hb => hb)
            (fun m me heq => ?_) h) fun _ _ h => h
          injection heq with hm hme
          rw [not_or, not_not, not_not] at hsame
          exact ⟨b, rfl, hsame.1.trans hm, by rw [← hme]; exact hsame.2.symm⟩
    | notFound =>
      exact (ih hin' hacc hfuel1).mono (fun r s2 h => h1.cons Resolve.noConfusion (fun _ hb => hb)
        (fun _ _ heq => Resolve.noConfusion heq) h) fun _ _ h => h
    | circular =>
      exact (ih hin' hacc hfuel1).mono (fun r s2 h => h1.cons Resolve.noConfusion (fun _ hb => hb)
        (fun _ _ heq => Resolve.noConfusion heq) h) fun _ _ h => h

theorem wp_resolveExport1 (hl : Connected mods) {start : JSAtom} (fuel m : Nat) (name : JSAtom) (hm : m < mods.length)
    (hname : name ∈ names mods start) (s : List (Nat × JSAtom)) (hfuel : unseen (reachable mods start) s < fuel) :
    WP (resolveExport1 grows mods fuel m name) s
      (Answers mods (fun b => Provides mods m name b.1 b.2) [(m, name)] none s) (OutOfMemory grows) := by
  induction fuel generalizing m name s with
  | zero => omega
  | succ fuel ih =>
    refine WP.bind (WP.bind (WP.of_get (WP.of_pure (WP.ite (fun hseen => ?_) fun hnew => ?_))))
    · exact WP.of_pure (.entered (of_decide_eq_true hseen))
    rw [decide_eq_true_eq] at hnew
    have hlt : unseen (reachable mods start) (s ++ [(m, name)]) < fuel :=
      Nat.lt_of_lt_of_le (unseen_lt (mem_reachable.2 ⟨hm, hname⟩) hnew) (Nat.le_of_lt_succ hfuel)
    obtain ⟨d, hd⟩ : ∃ d, mods[m]? = some d := ⟨mods[m], List.getElem?_eq_getElem hm⟩
    have hmem : d ∈ mods := List.mem_of_getElem? hd
    refine WP.bind (wp_addResolveEntry (WP.bind (wp_deref hd ?_)))
    cases hfind : d.findExportEntry name with
    | some me =>
      have hentry : me ∈ d.entries.exportEntries := List.mem_of_find?_eq_some hfind
      have hfound (hends : Ends me) : Answers mods (fun b => Provides mods m name b.1 b.2) [(m, name)] none s
          (.found m me) (s ++ [(m, name)]) :=
        .found (v := (m, name)) (ending_own hd hfind hends) (next_own hd hfind hends) (.own hd hfind hends)
      refine WP.ite (fun hlocal => WP.of_pure (hfound (.inl hlocal))) fun hlocal => ?_
      obtain ⟨m1, hr⟩ := Option.isSome_iff_exists.1 (hl.exports d hmem me hentry hlocal)
      refine WP.bind (wp_deref hr (WP.ite (fun hstar => WP.of_pure (hfound (.inr hstar))) fun hstar => ?_))
      -- an entry that refers to another module
      have hends : ¬Ends me := fun h => h.elim hlocal hstar
      have hname1 : me.localName ∈ names mods start :=
        List.mem_cons_of_mem _ (List.mem_flatMap.2 ⟨d, hmem, List.mem_map_of_mem hentry⟩)
      refine (ih m1 me.localName (request_lt hl hd hr) hname1 _ hlt).mono
        (fun r s' h => .visit (ending_indirect hd hfind hends) ?_) fun _ _ h => h
      rw [next_indirect hd hfind hends hr]
      exact h.imp fun b hb => .indirect hd hfind hends hr hb
    | none =>
      refine WP.ite (fun hdefault => ?_) fun hdefault => ?_
      · refine WP.of_pure (.visit (ending_star hd hfind) ?_)
        rw [next_default hd hfind hdefault]
        exact .nothing mods _ _
      · refine (wp_resolveStars (P := fun b => Provides mods m name b.1 b.2)
          (fun m1 hm1 s1 hs1 => ih m1 name hm1 hname s1 hs1) (fun se hse => ?_)
          (fun _ hb => absurd hb.symm (Option.some_ne_none _)) hlt).mono
          (fun r s' h => .visit (ending_star hd hfind) ?_) fun _ _ h => h
        · obtain ⟨m1, hr⟩ := Option.isSome_iff_exists.1 (hl.stars d hmem se hse)
          exact ⟨m1, hr, request_lt hl hd hr, fun b hb => .star hd hfind hdefault hse hr hb⟩
        · rw [next_star hd hfind hdefault]
          exact h

/-! ## Each module and name is entered once -/

theorem keeps_deref {σ β : Type} (I : σ → Prop) (p : Option β) : Keeps I (deref p) := by
  cases p with
  | none => exact .of_throw _
  | some x => exact .of_pure x

theorem keeps_resolveStars {resolve : Nat → M Resolve} (hresolve : ∀ m1, Keeps List.Nodup (resolve m1))
    (d : LoadedModule) (stars : List Int32) (acc : Option (Nat × JSExportEntry)) :
    Keeps List.Nodup (resolveStars resolve d stars acc) := by
  induction stars generalizing acc with
  | nil =>
    cases acc with
    | none => exact .of_pure _
    | some b => exact .of_pure _
  | cons se stars ih =>
    refine .bind (keeps_deref _ _) fun m1 => .bind (hresolve m1) fun r => ?_
    cases r with
    | ambiguous => exact .of_pure _
    | found resM resMe =>
      cases acc with
      | none => exact ih _
      | some b => exact .ite (.of_pure _) (ih _)
    | notFound => exact ih _
    | circular => exact ih _

theorem keeps_resolveExport1 (grows : Nat → Bool) (mods : List LoadedModule) (fuel m : Nat) (name : JSAtom) :
    Keeps List.Nodup (resolveExport1 grows mods fuel m name) := by
  induction fuel generalizing m name with
  | zero => exact .of_throw _
  | succ fuel ih =>
    refine fun s hs => WP.bind (WP.bind (WP.of_get (WP.of_pure (WP.ite (fun _ => hs) fun hnew => ?_))))
    rw [decide_eq_true_eq] at hnew
    have hadd : (s ++ [(m, name)]).Nodup := List.nodup_append.2 ⟨hs, List.nodup_singleton _, fun a ha b hb => by
      rintro rfl
      exact hnew (List.mem_singleton.1 hb ▸ ha)⟩
    refine WP.bind (WP.bind (WP.of_get (WP.ite (fun _ => WP.of_set ?_) fun _ => WP.of_throw hs)))
    refine Keeps.bind (keeps_deref _ _) (fun d => ?_) _ hadd
    cases d.findExportEntry name with
    | some me =>
      exact .ite (.of_pure _) (.bind (keeps_deref _ _) fun m1 => .ite (.of_pure _) (ih m1 me.localName))
    | none => exact .ite (.of_pure _) (keeps_resolveStars (fun m1 => ih m1 name) d _ none)

/-! ## The result -/

/-- A right answer, from a search that began with nothing entered. -/
theorem resolves_of_answers {r : Resolve} {s : List (Nat × JSAtom)}
    (h : Answers mods (fun b => Provides mods m name b.1 b.2) [(m, name)] none [] r s) : Resolves mods m name r := by
  have hfound (hr : r ≠ .ambiguous) {m' : Nat} {e : JSExportEntry} (hp : Provides mods m name m' e) :
      ∃ m1 me, r = .found m1 me ∧ Same (m1, me) (m', e) := by
    have hex := h.explored hr
    obtain ⟨u, hu, rfl, hend⟩ := ending_of_provides hex.closed_nil hp (hex.roots _ List.mem_cons_self)
    exact h.agrees hr u hu List.not_mem_nil e hend
  have hnone (hr : r ≠ .ambiguous) (hne : ∀ m1 me, r ≠ .found m1 me) (m' : Nat) (e : JSExportEntry) :
      ¬Provides mods m name m' e := by
    intro hp
    obtain ⟨m1, me, heq, _⟩ := hfound hr hp
    exact hne m1 me heq
  cases r with
  | found m1 me =>
    refine ⟨h.provided m1 me rfl, fun m' e hp => ?_⟩
    obtain ⟨m2, me2, heq, hsame⟩ := hfound Resolve.noConfusion hp
    injection heq with hm1 hme
    rw [hm1, hme]
    exact hsame
  | ambiguous => exact h.conflict rfl
  | notFound => exact hnone Resolve.noConfusion fun _ _ => Resolve.noConfusion
  | circular => exact hnone Resolve.noConfusion fun _ _ => Resolve.noConfusion

theorem wp_resolveExport (hl : Connected mods) (hm : m < mods.length) (name : JSAtom)
    (hfuel : (reachable mods name).length < fuel) :
    WP (resolveExport1 grows mods fuel m name) [] (fun r _ => Resolves mods m name r) (OutOfMemory grows) := by
  have hunseen : unseen (reachable mods name) [] < fuel :=
    Nat.lt_of_le_of_lt (List.length_filter_le _ _) hfuel
  exact (wp_resolveExport1 hl fuel m name hm List.mem_cons_self [] hunseen).mono
    (fun _ _ h => resolves_of_answers h) fun _ _ h => h

/-- Over modules that refer to each other in any way, `js_resolve_export` ends,
follows no pointer that is not there, and enters no module and name twice;
unless memory runs out it finds a name if and only if all that the name stands
for is one binding. -/
theorem resolveExport_resolves (grows : Nat → Bool) (fuel : Nat) (hl : Connected mods) (hm : m < mods.length)
    (name : JSAtom) (hfuel : (reachable mods name).length < fuel) :
    (∃ s, resolveExport grows mods fuel m name = .error .exception s ∧ s.Nodup ∧ grows (s.length + 1) = false) ∨
      ∃ r s, resolveExport grows mods fuel m name = .ok r s ∧ s.Nodup ∧ Resolves mods m name r := by
  have hwp : WP (resolveExport1 grows mods fuel m name) [] _ _ := wp_resolveExport hl hm name hfuel
  have hkeeps := keeps_resolveExport1 grows mods fuel m name [] List.nodup_nil
  cases hrun : resolveExport grows mods fuel m name with
  | error e s =>
    obtain ⟨rfl, hgrows⟩ := hwp.error hrun
    exact .inl ⟨s, rfl, hkeeps.error hrun, hgrows⟩
  | ok r s => exact .inr ⟨r, s, rfl, hkeeps.ok hrun, hwp.ok hrun⟩

/-! Two ways to one binding, with a cycle: the module 0 exports everything of 1
and of 2, and 2 everything of 0. -/

def entryOf (exportType : UInt8) (localName : JSAtom) : JSExportEntry := ⟨0, exportType, localName, 300⟩

def diamond : List LoadedModule :=
  [⟨⟨1, [2, 3], [], [0, 1], []⟩, [1, 2]⟩, ⟨⟨2, [4], [entryOf 1 300], [], []⟩, [3]⟩,
    ⟨⟨3, [1, 4], [], [0, 1], []⟩, [0, 3]⟩, ⟨⟨4, [], [entryOf 0 300], [], []⟩, []⟩]

theorem connected_diamond : Connected diamond := by
  have hstars : diamond.all (fun d => d.entries.starExportEntries.all fun se => (d.request se).isSome) = true := rfl
  exact ⟨by decide, by decide, fun d hd se hse => List.all_eq_true.1 (List.all_eq_true.1 hstars d hd) se hse⟩

theorem resolveExport_resolves_diamond :
    ∃ s, resolveExport (fun _ => true) diamond 20 0 300 = .ok (.found 3 (entryOf 0 300)) s ∧ s.Nodup ∧
      Resolves diamond 0 300 (.found 3 (entryOf 0 300)) := by
  have hrun : ∃ s, resolveExport (fun _ => true) diamond 20 0 300 = .ok (.found 3 (entryOf 0 300)) s := ⟨_, rfl⟩
  obtain ⟨s, hs⟩ := hrun
  obtain ⟨s', herr, _⟩ | ⟨r, s', hok, hnodup, h⟩ :=
    resolveExport_resolves (fun _ => true) 20 connected_diamond (show 0 < 4 by decide) 300 (by decide)
  · rw [hs] at herr
    cases herr
  · rw [hs] at hok
    injection hok with hr hs'
    exact ⟨s, hs, hs' ▸ hnodup, hr ▸ h⟩

end CkbJs.Proof.Link
