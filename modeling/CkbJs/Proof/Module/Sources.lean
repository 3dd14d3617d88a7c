import CkbJs.Proof.Module.Runs
import Mathlib.Data.List.Nodup
import Mathlib.Data.List.Perm.Subperm

/-!
# Loading the sources

Loaded from their sources, modules are recorded under the name of their file,
so that none is instantiated twice (`instances_js_nodup`), what a specifier
resolves to is determined by the importing module (`target_of_mem_imports`),
and loading always ends (`ends_js`).
-/

namespace CkbJs.Proof.Module

open CkbJs.Impl CkbJs.Impl.Module CkbJs.Spec.Module

variable {engine : Module.Engine} {p : Package engine} {s : Loader}

/-- A module that a request can come from. -/
def IsSource (d : ModuleDef) : Prop := d.name = d.file ∧ ∃ x, d.file = jsFile x

/-- The modules are those of different sources, under the names of their files,
and the imports are what these names say. -/
structure Sourced (p : Package engine) (s : Loader) : Prop where
  names : ∀ d ∈ s.modules, d.name = d.file
  files : ∀ d ∈ s.modules, ∃ source, locate p.js d.file = .found d.file source
  nodup : (s.modules.map ModuleDef.file).Nodup
  imports : ∀ i ∈ s.imports, (∃ x, i.importer = jsFile x) ∧
    target i.resolution = located (locate p.js (normalizeName i.importer i.specifier))

theorem Sourced.isSource (hs : Sourced p s) {d : ModuleDef} (hd : d ∈ s.modules) : IsSource d := by
  obtain ⟨source, hl⟩ := hs.files d hd
  obtain ⟨-, -, x, hx, -⟩ := locate_js hl
  exact ⟨hs.names d hd, x, hx⟩

def AllResolved (s : Loader) : Prop := ∀ d ∈ s.modules, d.resolved = true

/-- All modules are resolved, but maybe one. -/
def Resolving (m : Nat) (s : Loader) : Prop :=
  ∀ i d, s.modules[i]? = some d → i ≠ m → d.resolved = true

/-- There are no more modules than sources. -/
theorem Sourced.length_le (hs : Sourced p s) : s.modules.length ≤ p.modules.length := by
  have hsub : s.modules.map ModuleDef.file ⊆ p.modules.map fun m => jsFile m.1 := by
    intro f hf
    obtain ⟨d, hd, rfl⟩ := List.mem_map.mp hf
    obtain ⟨source, hsource⟩ := hs.files d hd
    obtain ⟨-, -, x, hx, hx'⟩ := locate_js hsource
    rw [hx]
    exact List.mem_map_of_mem (mem_of_sourceOf hx')
  have := (hs.nodup.subperm hsub).length_le
  rwa [List.length_map, List.length_map] at this

/-- An import that is what its name says. -/
theorem Sourced.log (hs : Sourced p s) {base : ModuleDef} {specifier : CString}
    (hbase : IsSource base) : Sourced p (logged p.js s base specifier) := by
  refine ⟨hs.names, hs.files, hs.nodup, fun i hi => ?_⟩
  rcases List.mem_append.mp hi with hi | hi
  · exact hs.imports i hi
  · rw [List.mem_singleton.mp hi]
    refine ⟨hbase.2, ?_⟩
    show target (resolutionOf p.js s (normalizeName base.name specifier)) =
      located (locate p.js (normalizeName base.file specifier))
    rw [← hbase.1]
    generalize normalizeName base.name specifier = name
    cases hfind : findLoadedModule s.modules name with
    | none => exact target_resolutionOf hfind
    | some m =>
      obtain ⟨d, hd, rfl, hres⟩ := @resolutionOf_loaded p.js _ _ _ hfind
      obtain ⟨source, hsource⟩ := hs.files d hd
      rw [hres, hs.names d hd, hsource]
      rfl

/-- A source that is not loaded yet. -/
theorem Sourced.add (hs : Sourced p s) {file : CString} {source : List Byte} (requests : List CString)
    (hfind : findLoadedModule s.modules file = none) (hl : locate p.js file = .found file source) :
    Sourced p (added s file file requests) := by
  refine ⟨fun d hd => ?_, fun d hd => ?_, ?_, hs.imports⟩
  · rcases List.mem_append.mp hd with hd | hd
    · exact hs.names d hd
    · rw [List.mem_singleton.mp hd]
  · rcases List.mem_append.mp hd with hd | hd
    · exact hs.files d hd
    · rw [List.mem_singleton.mp hd]
      exact ⟨source, hl⟩
  · show ((s.modules ++ [_]).map ModuleDef.file).Nodup
    rw [List.map_append, List.nodup_append]
    refine ⟨hs.nodup, List.nodup_singleton _, fun f hf g hg => ?_⟩
    obtain ⟨d, hd, rfl⟩ := List.mem_map.mp hf
    rw [List.mem_singleton.mp hg]
    exact hs.names d hd ▸ findLoadedModule_eq_none hfind d hd

@[simp] theorem length_added (s : Loader) (name file : CString) (requests : List CString) :
    (added s name file requests).modules.length = s.modules.length + 1 := by
  rw [added, List.length_append, List.length_singleton]

theorem resolving_added (hr : AllResolved s) (name file : CString) (requests : List CString) :
    Resolving s.modules.length (added s name file requests) := by
  intro i d hd hi
  have hlt : i < s.modules.length := by
    have := (List.getElem?_eq_some_iff.mp hd).1
    simp only [added, List.length_append, List.length_singleton] at this
    omega
  rw [added, List.getElem?_append_left hlt] at hd
  exact hr d (List.mem_of_getElem? hd)

/-- Where all modules are resolved there is nothing to do. -/
theorem wp_resolveModule_allResolved (files : Files) (fuel m : Nat) (hr : AllResolved s) :
    WP (resolveModule engine files fuel m) s (fun _ s' => s' = s)
      fun _ s' => s' = s ∧ fuel = 0 := by
  cases fuel with
  | zero => exact ⟨rfl, rfl⟩
  | succ fuel =>
    unfold WP
    rw [resolveModule_succ_run]
    cases hd : s.modules[m]? with
    | none => rfl
    | some d => simp only [hr d (List.mem_of_getElem? hd), if_true]

/-- A source is parsed, never read as bytecode. -/
theorem parse_of_sourceOf {x : CString} {source : List Byte} (h : sourceOf p x = some source) :
    source.head? ≠ some BC_VERSION ∧ ∃ requests, engine.parse source = some requests :=
  ⟨p.isSource _ (mem_of_sourceOf h), p.compiles _ (mem_of_sourceOf h)⟩

/-! ## Runs -/

/-- What a step of loading leaves when it ends. -/
def Done (p : Package engine) (s : Loader) (s' : Loader) : Prop :=
  Sourced p s' ∧ AllResolved s' ∧ s.modules.length ≤ s'.modules.length

/-- What a step of loading leaves when it stops: the nesting is as deep as the
number of modules that are not loaded at most. -/
def Stopped (p : Package engine) (fuel : Nat) (s : Loader) (e : Stop) (s' : Loader) : Prop :=
  Sourced p s' ∧ (e = .depth → fuel + s.modules.length < p.modules.length + 2)

theorem wp_request_js {fuel : Nat} (ih : ∀ m s, Sourced p s → Resolving m s →
      WP (resolveModule engine p.js fuel m) s (fun _ s' => Done p s s') (Stopped p fuel s))
    (hs : Sourced p s) (hr : AllResolved s) {base : ModuleDef} (hbase : IsSource base)
    (specifier : CString) :
    WP (hostResolveImportedModule engine p.js (resolveModule engine p.js fuel) base specifier >>=
        resolveModule engine p.js fuel) s
      (fun _ s' => Done p s s') (Stopped p (fuel + 1) s) := by
  have hlog : Sourced p (logged p.js s base specifier) := hs.log hbase
  have hlen := hs.length_le
  have hstop {e : Stop} (he : e ≠ .depth) : Stopped p (fuel + 1) s e (logged p.js s base specifier) :=
    ⟨hlog, fun h => absurd h he⟩
  apply WP.bind
  cases hfind : findLoadedModule s.modules (normalizeName base.name specifier) with
  | some m =>
    refine WP.of_run (y := pure m) (host_loaded hfind) (WP.of_pure ?_)
    have hr' : AllResolved (logged p.js s base specifier) := hr
    refine (wp_resolveModule_allResolved p.js fuel m hr').mono (fun _ s' h => ?_) fun e s' h => ?_
    · exact h ▸ ⟨hlog, hr', Nat.le_refl _⟩
    · exact ⟨h.1 ▸ hlog, fun _ => by omega⟩
  | none =>
    cases hl : locate p.js (normalizeName base.name specifier) with
    | missing => exact WP.of_run (y := throw _) (host_missing hfind hl) (hstop nofun)
    | overflow => exact WP.of_run (y := throw _) (host_overflow hfind hl) (hstop nofun)
    | found file source =>
      obtain ⟨rfl, -, x, -, hx⟩ := locate_js hl
      obtain ⟨hsource, requests, hparse⟩ := parse_of_sourceOf hx
      refine WP.of_run (host_source hfind hl hsource hparse) ?_
      have hadd := hlog.add requests hfind hl
      have hr' := resolving_added (s := logged p.js s base specifier) hr (normalizeName base.name specifier)
        (normalizeName base.name specifier) requests
      have hlen' : (added (logged p.js s base specifier) (normalizeName base.name specifier)
        (normalizeName base.name specifier) requests).modules.length = s.modules.length + 1 := length_added _ _ _ _
      refine WP.seq (ih _ _ hadd hr') (fun e s' h => ⟨h.1, fun he => ?_⟩) fun _ s' h => WP.of_pure ?_
      · have := h.2 he
        omega
      · obtain ⟨hs', hr', hle⟩ := h
        refine (wp_resolveModule_allResolved p.js fuel _ hr').mono (fun _ s'' h => ?_) fun e s'' h => ?_
        · exact h ▸ ⟨hs', hr', by omega⟩
        · exact ⟨h.1 ▸ hs', fun _ => by have := hs'.length_le; omega⟩

theorem wp_requests_js {fuel : Nat} (ih : ∀ m s, Sourced p s → Resolving m s →
      WP (resolveModule engine p.js fuel m) s (fun _ s' => Done p s s') (Stopped p fuel s))
    (hs : Sourced p s) (hr : AllResolved s) {base : ModuleDef} (hbase : IsSource base)
    (specifiers : List CString) :
    WP (resolveRequests engine p.js (resolveModule engine p.js fuel) base specifiers) s
      (fun _ s' => Done p s s') (Stopped p (fuel + 1) s) := by
  induction specifiers generalizing s with
  | nil => exact ⟨hs, hr, Nat.le_refl _⟩
  | cons specifier specifiers ihs =>
    rw [resolveRequests, ← bind_assoc]
    refine WP.seq (wp_request_js ih hs hr hbase specifier) (fun _ _ h => h) fun _ s' h => ?_
    obtain ⟨hs', hr', hle⟩ := h
    refine (ihs hs' hr').mono (fun _ s'' h => ⟨h.1, h.2.1, by have := h.2.2; omega⟩) fun e s'' h => ?_
    exact ⟨h.1, fun he => by have := h.2 he; omega⟩

/-- Marking a module as resolved. -/
theorem Sourced.resolve (hs : Sourced p s) {m : Nat} {d : ModuleDef} (hd : s.modules[m]? = some d) :
    Sourced p { s with modules := s.modules.set m { d with resolved := true } } := by
  have hmem := List.mem_of_getElem? hd
  have hfiles : (s.modules.set m { d with resolved := true }).map ModuleDef.file =
      s.modules.map ModuleDef.file := by
    have := (le_resolved hd).files
    exact (this.eq_of_length (by simp)).symm
  refine ⟨fun d' hd' => ?_, fun d' hd' => ?_, ?_, hs.imports⟩
  · rcases List.mem_or_eq_of_mem_set hd' with h | rfl
    · exact hs.names d' h
    · exact hs.names d hmem
  · rcases List.mem_or_eq_of_mem_set hd' with h | rfl
    · exact hs.files d' h
    · exact hs.files d hmem
  · show ((s.modules.set m { d with resolved := true }).map ModuleDef.file).Nodup
    rw [hfiles]
    exact hs.nodup

theorem wp_resolveModule_js (fuel m : Nat) (hs : Sourced p s) (hr : Resolving m s) :
    WP (resolveModule engine p.js fuel m) s (fun _ s' => Done p s s') (Stopped p fuel s) := by
  induction fuel generalizing m s with
  | zero => exact ⟨hs, fun _ => by have := hs.length_le; omega⟩
  | succ fuel ih =>
    have hout (h : s.modules[m]? = none ∨ ∃ d, s.modules[m]? = some d ∧ d.resolved = true) :
        Done p s s := by
      refine ⟨hs, fun d hd => ?_, Nat.le_refl _⟩
      obtain ⟨i, hi⟩ := List.getElem?_of_mem hd
      by_cases him : i = m
      · subst him
        rcases h with h | ⟨d', h, hd'⟩
        · nomatch h.symm.trans hi
        · cases h.symm.trans hi
          exact hd'
      · exact hr i d hi him
    unfold WP
    rw [resolveModule_succ_run]
    cases hd : s.modules[m]? with
    | none => exact hout (.inl hd)
    | some d =>
      by_cases hres : d.resolved = true
      · simp only [hres, if_true]
        exact hout (.inr ⟨d, hd, hres⟩)
      · simp only [if_neg hres]
        have hr' : AllResolved { s with modules := s.modules.set m { d with resolved := true } } := by
          intro d' hd'
          obtain ⟨i, hi⟩ := List.getElem?_of_mem hd'
          by_cases him : m = i
          · subst him
            rw [List.getElem?_set_self (List.getElem?_eq_some_iff.mp hd).1] at hi
            cases hi
            rfl
          · rw [List.getElem?_set_ne him] at hi
            exact hr i d' hi (Ne.symm him)
        have hlen : (s.modules.set m { d with resolved := true }).length = s.modules.length :=
          List.length_set ..
        have := wp_requests_js (fun m s => ih m) (hs.resolve hd) hr'
          (hs.isSource (List.mem_of_getElem? hd)) d.requests
        simpa only [WP, Done, Stopped, hlen] using this

theorem wp_loadEntry_js (fuel : Nat) :
    WP (loadEntry engine p.js fuel) ⟨[], []⟩ (fun _ s' => Sourced p s')
      fun e s' => Sourced p s' ∧ (e = .depth → fuel < p.modules.length + 1) := by
  have h0 : Sourced p ⟨[], []⟩ := ⟨nofun, nofun, List.nodup_nil, nofun⟩
  unfold loadEntry
  rw [entry_js]
  cases hx : sourceOf p mainStem with
  | none => exact ⟨h0, nofun⟩
  | some source =>
    obtain ⟨hsource, requests, hparse⟩ := parse_of_sourceOf hx
    refine WP.ite (fun _ => ⟨h0, nofun⟩) fun hne => WP.ite (fun h => absurd h hsource) fun _ => ?_
    simp only [hparse]
    have hl : locate p.js (jsFile mainStem) = .found (jsFile mainStem) source :=
      locate_of_loadFile (loadFile_eq_some.mpr ⟨(js_jsFile p _).trans hx, fun h => hne (by rw [h]; rfl)⟩)
    have hadd : Sourced p (added ⟨[], []⟩ (jsFile mainStem) (jsFile mainStem) requests) :=
      h0.add requests rfl hl
    have hr : Resolving 0 (added ⟨[], []⟩ (jsFile mainStem) (jsFile mainStem) requests) :=
      resolving_added (s := ⟨[], []⟩) nofun _ _ _
    refine WP.bind ((wp_resolveModule_js fuel 0 hadd hr).mono (fun _ s' h => h.1) fun e s' h => ?_)
    refine ⟨h.1, fun he => ?_⟩
    have : fuel + 1 < p.modules.length + 2 := h.2 he
    omega

theorem sourced_load (p : Package engine) (fuel : Nat) : Sourced p (final (load engine p.js fuel)) := by
  have h := wp_loadEntry_js (p := p) fuel
  unfold load final
  cases hrun : (loadEntry engine p.js fuel).run ⟨[], []⟩ with
  | ok a s' => exact h.ok hrun
  | error e s' => exact (h.error hrun).1

/-- Loading the sources ends. -/
theorem ends_js (p : Package engine) : Ends (load engine p.js (p.modules.length + 1)) := by
  have h := wp_loadEntry_js (p := p) (p.modules.length + 1)
  intro s hs
  unfold WP at h
  rw [show (loadEntry engine p.js _).run ⟨[], []⟩ = _ from hs] at h
  exact Nat.lt_irrefl _ (h.2 rfl)

end CkbJs.Proof.Module
