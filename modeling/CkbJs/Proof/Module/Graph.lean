import CkbJs.Proof.Module.Sources
import Mathlib.Data.List.TakeWhile

/-!
# Loading the bytecode

Loading the sources and loading the bytecode go in lockstep as long as the
imports are plain (`Related`). The first import that is not plain tells the
two apart for good (`Apart`): it resolves to another module, or it
instantiates one twice. `pairs_request` is the step and `pairs_loadEntry` the
run; so the bytecode loads the same graph exactly if all imports of the
sources are plain (`sameGraph_iff`).
-/

namespace CkbJs.Proof.Module

open CkbJs.Impl CkbJs.Impl.Module CkbJs.Spec.Module

variable {engine : Module.Engine} {p : Package engine} {s t : Loader}

def noName : CString := .empty

/-- The module that bytecode gives in the place of a source. -/
def bytecodeOf (d : ModuleDef) : ModuleDef := ⟨noName, secondName d.file, d.requests, d.resolved⟩

/-- The same modules are loaded, through plain imports. -/
structure Related (p : Package engine) (s t : Loader) : Prop where
  sourced : Sourced p s
  nonempty : s.modules ≠ []
  modules : t.modules = s.modules.map bytecodeOf
  imports : t.imports.map edge = s.imports.map edge
  plain : ∀ i ∈ s.imports, Plain p.bc i

/-- An import that is not plain, and what it leads to: a specifier that
resolves differently, or a module that is instantiated twice. -/
def Apart (p : Package engine) (s t : Loader) : Prop :=
  (∃ i ∈ s.imports, ¬Plain p.bc i) ∧
  ((∃ i ∈ s.imports, ∃ j ∈ t.imports, stem i.importer = stem j.importer ∧
      i.specifier = j.specifier ∧ target i.resolution ≠ target j.resolution) ∨
    ¬(t.modules.map ModuleDef.file).Nodup)

theorem apart_mono {s' t' : Loader} (hs : s ≤ s') (ht : t ≤ t') (h : Apart p s t) : Apart p s' t' := by
  obtain ⟨⟨i, hi, hp⟩, h⟩ := h
  refine ⟨⟨i, hs.imports.subset hi, hp⟩, h.imp ?_ fun h hn => h (hn.sublist ht.files.sublist)⟩
  exact fun ⟨i, hi, j, hj, h⟩ => ⟨i, hs.imports.subset hi, j, ht.imports.subset hj, h⟩

/-- The files of related states. -/
theorem Related.files (h : Related p s t) :
    t.modules.map ModuleDef.file = (s.modules.map ModuleDef.file).map secondName := by
  rw [h.modules, List.map_map, List.map_map]
  rfl

/-- Among modules without a name, only the empty name finds one: the first. -/
theorem Related.findLoaded (h : Related p s t) {name : CString} (hname : name ≠ noName) :
    findLoadedModule t.modules name = none := by
  rw [h.modules]
  refine List.findIdx?_eq_none_iff.mpr fun d hd => ?_
  obtain ⟨d', -, rfl⟩ := List.mem_map.mp hd
  exact decide_eq_false fun h => hname h.symm

/-! ## A module that is resolved twice -/

theorem resolveModule_twice (files : Files) (fuel m : Nat) (s : Loader) :
    (resolveModule engine files fuel m >>= fun _ => pure m >>= resolveModule engine files fuel).run s =
      (resolveModule engine files fuel m).run s := by
  rw [EStateM.run_bind]
  cases hrun : (resolveModule engine files fuel m).run s with
  | error e s' => rfl
  | ok _ s' =>
    show (resolveModule engine files fuel m).run s' = .ok () s'
    cases fuel with
    | zero => nomatch hrun
    | succ fuel =>
      rw [resolveModule_succ_run] at hrun ⊢
      cases hd : s.modules[m]? with
      | none =>
        rw [hd] at hrun
        cases hrun
        rw [hd]
      | some d =>
        rw [hd] at hrun
        have hres : ∃ d', s'.modules[m]? = some d' ∧ d'.resolved = true := by
          dsimp only at hrun
          split at hrun
          · cases hrun
            exact ⟨d, hd, ‹_›⟩
          · have hle := grows_resolveRequests engine files (grows_resolveModule engine files fuel) d d.requests
              { s with modules := s.modules.set m { d with resolved := true } }
            rw [hrun] at hle
            exact hle.resolved m { d with resolved := true }
              (List.getElem?_set_self (List.getElem?_eq_some_iff.mp hd).1) rfl
        obtain ⟨d', hd', hr⟩ := hres
        simp only [hd', hr, if_true]

/-! ## A request -/

theorem stem_bytecodeOf {d : ModuleDef} (hd : IsSource d) : stem (bytecodeOf d).file = stem d.file := by
  obtain ⟨-, x, hx⟩ := hd
  show stem (secondName d.file) = _
  rw [hx, secondName_jsFile, stem_bcFile, stem_jsFile]

/-- What a module resolves to among the sources is a source. -/
theorem jsFile_of_target (hs : Sourced p s) {name : CString} {m : List Byte}
    (h : target (resolutionOf p.js s name) = .module m) : ∃ x, name = jsFile x := by
  cases hfind : findLoadedModule s.modules name with
  | some i =>
    obtain ⟨d, hd, rfl, -⟩ := @resolutionOf_loaded p.js _ _ _ hfind
    obtain ⟨hn, x, hx⟩ := hs.isSource hd
    exact ⟨x, hn.trans hx⟩
  | none =>
    rw [target_resolutionOf hfind] at h
    cases hl : locate p.js name with
    | found file source =>
      obtain ⟨-, -, x, hx, -⟩ := locate_js hl
      exact ⟨x, hx⟩
    | missing => rw [hl] at h; nomatch h
    | overflow => rw [hl] at h; nomatch h

/-- Where no module has a name, the empty name is that of a loaded module. -/
theorem Related.findLoaded_noName (h : Related p s t) :
    ∃ m, findLoadedModule t.modules noName = some m := by
  rw [h.modules]
  cases hs : s.modules with
  | nil => exact absurd hs h.nonempty
  | cons d ds => exact ⟨0, by rw [List.map_cons, findLoadedModule, List.findIdx?_cons]; rfl⟩

theorem readObject_compileFromFile {source : List Byte} {requests : List CString}
    (h : engine.parse source = some requests) :
    (compileFromFile engine source).head? = some BC_VERSION ∧
      engine.readObject (compileFromFile engine source) = .module noName requests :=
  ⟨engine.head_writeObject _ _, engine.readObject_writeObject _ _ _ h⟩

/-- Where a loaded source is imported, the bytecode of the same module is loaded once more. -/
theorem twice_of_loaded (h : Related p s t) {d : ModuleDef} {specifier : CString} {m : Nat} (fuel : Nat)
    (hroot : fromRoot specifier ≠ noName)
    (hloaded : findLoadedModule s.modules (normalizeName d.name specifier) = some m)
    (htarget : target (resolutionOf p.js s (normalizeName d.name specifier)) =
      target (resolutionOf p.bc t (fromRoot specifier))) :
    ¬((final ((hostResolveImportedModule engine p.bc (resolveModule engine p.bc fuel) (bytecodeOf d)
      specifier).run t)).modules.map ModuleDef.file).Nodup := by
  have hfind := h.findLoaded hroot
  rw [target_resolutionOf hfind] at htarget
  obtain ⟨d', hmem, -, hres⟩ := @resolutionOf_loaded p.js _ _ _ hloaded
  obtain ⟨-, x, hx⟩ := h.sourced.isSource hmem
  rw [hres] at htarget
  cases hl : locate p.bc (fromRoot specifier) with
  | missing => rw [hl] at htarget; nomatch htarget
  | overflow => rw [hl] at htarget; nomatch htarget
  | found file content =>
    obtain ⟨y, source, rfl, hy, rfl⟩ := locate_bc hl
    obtain ⟨-, requests, hparse⟩ := parse_of_sourceOf hy
    obtain ⟨hhead, hread⟩ := readObject_compileFromFile hparse
    have hxy : y = x := by
      rw [hl, hx] at htarget
      exact stem_bcFile_eq_iff.mp (Target.module.inj htarget).symm
    rw [host_bytecode hfind hl hhead hread]
    show ¬((t.modules ++ [_]).map ModuleDef.file).Nodup
    rw [List.map_append, h.files]
    intro hn
    have hfile := List.mem_map_of_mem (f := secondName) (List.mem_map_of_mem (f := ModuleDef.file) hmem)
    refine (List.nodup_append.mp hn).2.2 _ hfile _ (List.mem_singleton_self _) ?_
    rw [hx, secondName_jsFile, hxy]

/-- An import that is not plain tells the two loaders apart. -/
theorem apart_of_not_plain (h : Related p s t) {d : ModuleDef} (hd : IsSource d)
    (specifier : CString) (hp : ¬Plain p.bc (importOf p.js s d specifier)) (fuel : Nat) :
    Apart p (final ((hostResolveImportedModule engine p.js (resolveModule engine p.js fuel) d specifier).run s))
      (final ((hostResolveImportedModule engine p.bc (resolveModule engine p.bc fuel) (bytecodeOf d)
        specifier).run t)) := by
  have hi : importOf p.js s d specifier ∈ (final ((hostResolveImportedModule engine p.js
      (resolveModule engine p.js fuel) d specifier).run s)).imports :=
    (logged_le (grows_resolveModule engine p.js fuel)).imports.subset (List.mem_append_right _ (by simp))
  have hj : importOf p.bc t (bytecodeOf d) specifier ∈ (final ((hostResolveImportedModule engine p.bc
      (resolveModule engine p.bc fuel) (bytecodeOf d) specifier).run t)).imports :=
    (logged_le (grows_resolveModule engine p.bc fuel)).imports.subset (List.mem_append_right _ (by simp))
  refine ⟨⟨_, hi, hp⟩, ?_⟩
  by_cases htarget : target (importOf p.js s d specifier).resolution =
      target (importOf p.bc t (bytecodeOf d) specifier).resolution
  swap
  · exact .inl ⟨_, hi, _, hj, (stem_bytecodeOf hd).symm, rfl, htarget⟩
  have htarget : target (resolutionOf p.js s (normalizeName d.name specifier)) =
      target (resolutionOf p.bc t (fromRoot specifier)) := htarget
  by_cases hroot : fromRoot specifier = noName
  · -- the bytecode finds the first module, under the empty name
    obtain ⟨m, hm⟩ := h.findLoaded_noName
    obtain ⟨d', -, -, hres⟩ := @resolutionOf_loaded p.bc _ _ _ hm
    rw [hroot, hres] at htarget
    obtain ⟨x, hx⟩ := jsFile_of_target h.sourced htarget
    exact absurd hx (ne_jsFile_of_fromRoot (congrArg Subtype.val hroot) d.name x)
  · right
    cases hloaded : findLoadedModule s.modules (normalizeName d.name specifier) with
    | some m => exact twice_of_loaded h fuel hroot hloaded htarget
    | none =>
      rw [target_resolutionOf (h.findLoaded hroot)] at htarget
      refine absurd ⟨fun file hfile => ?_, hroot, htarget.symm⟩ hp
      have hfile : resolutionOf p.js s (normalizeName d.name specifier) = .loaded file := hfile
      unfold resolutionOf at hfile
      rw [hloaded] at hfile
      cases hl : locate p.js (normalizeName d.name specifier) <;> rw [hl] at hfile <;> nomatch hfile

/-- A plain import is logged alike. -/
theorem Related.log (h : Related p s t) {d : ModuleDef} (hd : IsSource d) {specifier : CString}
    (hp : Plain p.bc (importOf p.js s d specifier)) :
    Related p (logged p.js s d specifier) (logged p.bc t (bytecodeOf d) specifier) := by
  refine ⟨h.sourced.log hd, h.nonempty, h.modules, ?_, fun i hi => ?_⟩
  · show (t.imports ++ [_]).map edge = (s.imports ++ [_]).map edge
    have hedge : edge (importOf p.bc t (bytecodeOf d) specifier) = edge (importOf p.js s d specifier) := by
      refine Prod.ext (stem_bytecodeOf hd) (Prod.ext rfl ?_)
      exact (target_resolutionOf (h.findLoaded hp.named)).trans hp.same
    rw [List.map_append, List.map_append, h.imports, List.map_singleton, List.map_singleton, hedge]
  · rcases List.mem_append.mp hi with hi | hi
    · exact h.plain i hi
    · rw [List.mem_singleton.mp hi]
      exact hp

/-- The same module, added as a source and as bytecode. -/
theorem Related.add (h : Related p s t) {x : CString} {source : List Byte} (requests : List CString)
    (hfind : findLoadedModule s.modules (jsFile x) = none)
    (hl : locate p.js (jsFile x) = .found (jsFile x) source) :
    Related p (added s (jsFile x) (jsFile x) requests) (added t noName (bcFile x) requests) := by
  refine ⟨h.sourced.add requests hfind hl, by simp [added], ?_, h.imports, h.plain⟩
  show t.modules ++ [_] = (s.modules ++ [_]).map bytecodeOf
  rw [List.map_append, h.modules, List.map_singleton, bytecodeOf, secondName_jsFile]

theorem eq_missing_of_located {l : Lookup} (h : located l = .missing) : l = .missing := by
  cases l with
  | missing => rfl
  | found file content => nomatch h
  | overflow => nomatch h

theorem eq_overflow_of_located {l : Lookup} (h : located l = .overflow) : l = .overflow := by
  cases l with
  | overflow => rfl
  | found file content => nomatch h
  | missing => nomatch h

theorem eq_found_of_located {l : Lookup} {m : List Byte} (h : located l = .module m) :
    ∃ file content, l = .found file content ∧ stem file = m := by
  cases l with
  | found file content => exact ⟨file, content, rfl, Target.module.inj h⟩
  | missing => nomatch h
  | overflow => nomatch h

/-- Importing a source that is not loaded yet. -/
theorem request_run_js {fuel : Nat} {d : ModuleDef} {specifier file : CString} {source : List Byte}
    {requests : List CString} (hfind : findLoadedModule s.modules (normalizeName d.name specifier) = none)
    (hl : locate p.js (normalizeName d.name specifier) = .found file source)
    (hsource : source.head? ≠ some BC_VERSION) (hparse : engine.parse source = some requests) :
    (hostResolveImportedModule engine p.js (resolveModule engine p.js fuel) d specifier >>=
        resolveModule engine p.js fuel).run s =
      (resolveModule engine p.js fuel s.modules.length).run
        (added (logged p.js s d specifier) (normalizeName d.name specifier) file requests) := by
  rw [run_bind_congr (host_source hfind hl hsource hparse), bind_assoc]
  exact resolveModule_twice p.js fuel _ _

theorem pairs_request {fuel : Nat} (ih : ∀ m s t, Related p s t →
      Pairs (Related p) (Apart p) (resolveModule engine p.js fuel m) (resolveModule engine p.bc fuel m) s t)
    (h : Related p s t) {d : ModuleDef} (hd : IsSource d) (specifier : CString) :
    Pairs (Related p) (Apart p)
      (hostResolveImportedModule engine p.js (resolveModule engine p.js fuel) d specifier >>=
        resolveModule engine p.js fuel)
      (hostResolveImportedModule engine p.bc (resolveModule engine p.bc fuel) (bytecodeOf d) specifier >>=
        resolveModule engine p.bc fuel) s t := by
  by_cases hp : Plain p.bc (importOf p.js s d specifier)
  swap
  · exact .inr (apart_mono (Grows.final_le_bind (grows_resolveModule engine p.js fuel) s)
      (Grows.final_le_bind (grows_resolveModule engine p.bc fuel) t)
      (apart_of_not_plain h hd specifier hp fuel))
  have hlog := h.log hd hp
  have hfind : findLoadedModule s.modules (normalizeName d.name specifier) = none := by
    cases hfind : findLoadedModule s.modules (normalizeName d.name specifier) with
    | none => rfl
    | some m =>
      obtain ⟨d', -, -, hres⟩ := @resolutionOf_loaded p.js _ _ _ hfind
      exact absurd hres (hp.fresh d'.file)
  have hfind' : findLoadedModule t.modules (normalizeName (bytecodeOf d).name specifier) = none :=
    h.findLoaded hp.named
  have hsame : located (locate p.bc (normalizeName (bytecodeOf d).name specifier)) =
      located (locate p.js (normalizeName d.name specifier)) := hp.same.trans (target_resolutionOf hfind)
  unfold Pairs
  cases hl : locate p.js (normalizeName d.name specifier) with
  | missing =>
    have hl' := eq_missing_of_located (hsame.trans (by rw [hl]; rfl))
    rw [EStateM.run_bind, EStateM.run_bind, host_missing hfind hl, host_missing hfind' hl']
    exact .inl ⟨rfl, hlog⟩
  | overflow =>
    have hl' := eq_overflow_of_located (hsame.trans (by rw [hl]; rfl))
    rw [EStateM.run_bind, EStateM.run_bind, host_overflow hfind hl, host_overflow hfind' hl']
    exact .inl ⟨rfl, hlog⟩
  | found file source =>
    obtain ⟨file', content, hl', hstem⟩ := eq_found_of_located (hsame.trans (by rw [hl]; rfl))
    obtain ⟨rfl, -, x, hx, hsx⟩ := locate_js hl
    obtain ⟨y, source', rfl, hsy, rfl⟩ := locate_bc hl'
    obtain ⟨hsource, requests, hparse⟩ := parse_of_sourceOf hsx
    obtain rfl : y = x := stem_bcFile_eq_iff.mp (hx ▸ hstem)
    obtain rfl : source' = source := Option.some.inj (hsy.symm.trans hsx)
    obtain ⟨hhead, hread⟩ := readObject_compileFromFile hparse
    have hlen : t.modules.length = s.modules.length := by rw [h.modules, List.length_map]
    have hadd : Related p (added (logged p.js s d specifier) (normalizeName d.name specifier)
        (normalizeName d.name specifier) requests) (added (logged p.bc t (bytecodeOf d) specifier) noName
        (bcFile y) requests) := by
      rw [hx] at hl hfind ⊢
      exact hlog.add requests hfind hl
    rw [request_run_js hfind hl hsource hparse, EStateM.run_bind, host_bytecode hfind' hl' hhead hread, hlen]
    exact ih _ _ _ hadd

/-! ## The run -/

theorem pairs_requests {fuel : Nat} (ih : ∀ m s t, Related p s t →
      Pairs (Related p) (Apart p) (resolveModule engine p.js fuel m) (resolveModule engine p.bc fuel m) s t)
    (h : Related p s t) {d : ModuleDef} (hd : IsSource d) (specifiers : List CString) :
    Pairs (Related p) (Apart p) (resolveRequests engine p.js (resolveModule engine p.js fuel) d specifiers)
      (resolveRequests engine p.bc (resolveModule engine p.bc fuel) (bytecodeOf d) specifiers) s t := by
  induction specifiers generalizing s t with
  | nil => exact Pairs.of_pure _ h
  | cons specifier specifiers ihs =>
    rw [resolveRequests, resolveRequests, ← bind_assoc, ← bind_assoc]
    refine Pairs.bind (fun _ _ _ _ => apart_mono) ?_ ?_ (pairs_request ih h hd specifier) fun _ s' t' h' => ihs h'
    · exact fun _ => grows_resolveRequests engine p.js (grows_resolveModule engine p.js fuel) d specifiers
    · exact fun _ => grows_resolveRequests engine p.bc (grows_resolveModule engine p.bc fuel) _ specifiers

theorem pairs_resolveModule (fuel m : Nat) (h : Related p s t) :
    Pairs (Related p) (Apart p) (resolveModule engine p.js fuel m) (resolveModule engine p.bc fuel m) s t := by
  induction fuel generalizing m s t with
  | zero => exact Pairs.of_throw _ h
  | succ fuel ih =>
    unfold Pairs
    rw [resolveModule_succ_run, resolveModule_succ_run, h.modules, List.getElem?_map]
    cases hd : s.modules[m]? with
    | none => exact .inl ⟨rfl, h⟩
    | some d =>
      by_cases hr : d.resolved = true
      · simp only [Option.map_some, bytecodeOf, hr, if_true]
        exact .inl ⟨rfl, h⟩
      · simp only [Option.map_some, if_neg hr, if_neg (show ¬(bytecodeOf d).resolved = true from hr)]
        have h' : Related p { s with modules := s.modules.set m { d with resolved := true } }
            { t with modules := (s.modules.map bytecodeOf).set m { bytecodeOf d with resolved := true } } := by
          refine ⟨h.sourced.resolve hd, fun hn => h.nonempty ?_, ?_, h.imports, h.plain⟩
          · simpa using hn
          · rw [List.map_set]
            rfl
        exact pairs_requests (fun m s t => ih m) h' (h.sourced.isSource (List.mem_of_getElem? hd)) d.requests

/-- What two loaders that have not been told apart have in common. -/
structure Agree (p : Package engine) (s t : Loader) : Prop where
  imports : t.imports.map edge = s.imports.map edge
  plain : ∀ i ∈ s.imports, Plain p.bc i
  nodup : (t.modules.map ModuleDef.file).Nodup

theorem Related.agree (h : Related p s t) : Agree p s t := by
  refine ⟨h.imports, h.plain, ?_⟩
  rw [h.files]
  refine List.Nodup.map_on (fun f hf g hg hfg => ?_) h.sourced.nodup
  obtain ⟨d, hd, rfl⟩ := List.mem_map.mp hf
  obtain ⟨e, he, rfl⟩ := List.mem_map.mp hg
  obtain ⟨-, x, hx⟩ := h.sourced.isSource hd
  obtain ⟨-, y, hy⟩ := h.sourced.isSource he
  rw [hx, hy, secondName_jsFile, secondName_jsFile, bcFile_inj] at hfg
  rw [hx, hy, hfg]

theorem ends_of_alike {R : Loader → Loader → Prop} {r r' : EStateM.Result Stop Loader Unit}
    (h : Alike R r r') (hend : Ends r) : Ends r' := by
  rintro t rfl
  cases r with
  | ok _ s => exact h
  | error e s => exact hend s (by rw [h.1])

theorem ends_of_ok {r : EStateM.Result Stop Loader Unit} {s : Loader} (h : r = .ok () s) : Ends r :=
  h ▸ nofun

/-- Both loaders end alike, unless they are told apart. -/
theorem load_cases (p : Package engine) (fuel : Nat) :
    ((Ends (load engine p.js fuel) → fuel ≠ 0 → Ends (load engine p.bc fuel)) ∧
      Agree p (final (load engine p.js fuel)) (final (load engine p.bc fuel))) ∨
    Apart p (final (load engine p.js fuel)) (final (load engine p.bc fuel)) := by
  have hstart : Agree p ⟨[], []⟩ ⟨[], []⟩ := ⟨rfl, nofun, List.nodup_nil⟩
  unfold load loadEntry
  rw [entry_js, entry_bc]
  cases hx : sourceOf p mainStem with
  | none => exact .inl ⟨fun _ _ => nofun, hstart⟩
  | some source =>
    obtain ⟨hsource, requests, hparse⟩ := parse_of_sourceOf hx
    obtain ⟨hhead, hread⟩ := readObject_compileFromFile hparse
    simp only [Option.map_some, if_pos hhead, if_neg hsource, hparse, hread,
      if_neg (mt List.length_eq_zero_iff.mp (compileFromFile_ne_nil source))]
    by_cases hne : source.length = 0
    · -- an empty source is no module, but its bytecode is one, without requests
      obtain rfl : source = [] := List.length_eq_zero_iff.mp hne
      obtain rfl : requests = [] := Option.some.inj (hparse.symm.trans engine.parse_nil)
      rw [if_pos hne]
      cases fuel with
      | zero => exact .inl ⟨fun _ h => absurd rfl h, rfl, nofun, List.nodup_singleton _⟩
      | succ fuel => exact .inl ⟨fun _ _ => nofun, rfl, nofun, List.nodup_singleton _⟩
    · rw [if_neg hne]
      have hl : locate p.js (jsFile mainStem) = .found (jsFile mainStem) source :=
        locate_of_loadFile (loadFile_eq_some.mpr ⟨(js_jsFile p _).trans hx, fun h => hne (by rw [h]; rfl)⟩)
      have h0 : Sourced p ⟨[], []⟩ := ⟨nofun, nofun, List.nodup_nil, nofun⟩
      have h : Related p (added ⟨[], []⟩ (jsFile mainStem) (jsFile mainStem) requests)
          (added ⟨[], []⟩ noName (bcFile mainStem) requests) := by
        refine ⟨h0.add requests rfl hl, nofun, ?_, rfl, nofun⟩
        show [_] = [_]
        rw [bytecodeOf, secondName_jsFile]
      exact (pairs_resolveModule fuel 0 h).imp_left fun h =>
        ⟨fun hend _ => ends_of_alike h hend, h.final.agree⟩

/-- Loading the bytecode gives the same graph exactly if every import of the
sources is plain: of a module that is not loaded yet, under a specifier that
means the same from the root. -/
theorem sameGraph_iff (p : Package engine) : SameGraph engine p.js p.bc ↔
    ∀ fuel, Ends (load engine p.js fuel) → ∀ i ∈ (final (load engine p.js fuel)).imports, Plain p.bc i := by
  constructor
  · intro h fuel hend i hi
    obtain ⟨fuel', hend'⟩ := h.ends ⟨fuel, hend⟩
    have hjs := load_of_le engine p.js (Nat.le_max_left fuel fuel') hend
    have hbc := load_of_le engine p.bc (Nat.le_max_right fuel fuel') hend'
    have hcases := load_cases p (max fuel fuel')
    rw [hjs, hbc] at hcases
    rcases hcases with ⟨-, hagree⟩ | ⟨-, h' | h'⟩
    · exact hagree.plain i hi
    · obtain ⟨i, hi, j, hj, himporter, hspecifier, htarget⟩ := h'
      obtain ⟨i', hi', hedge⟩ := List.mem_map.mp
        ((h.resolves fuel fuel' hend hend' (edge j)).mpr (List.mem_map_of_mem hj))
      have hs := sourced_load p fuel
      obtain ⟨⟨x, hx⟩, hi⟩ := hs.imports i hi
      obtain ⟨⟨y, hy⟩, hi'⟩ := hs.imports i' hi'
      -- both imports are of one name, which resolves to one module
      have hxy : y = x := by
        have : stem i'.importer = stem i.importer := (congrArg Prod.fst hedge).trans himporter.symm
        rw [hx, hy, stem_jsFile, stem_jsFile] at this
        exact Subtype.ext this
      have hspec : i'.specifier = i.specifier :=
        (congrArg (fun e => e.2.1) hedge).trans hspecifier.symm
      have ht : target i'.resolution = target j.resolution := congrArg (fun e => e.2.2) hedge
      rw [hi, ← ht, hi', hx, hy, hxy, hspec] at htarget
      exact absurd rfl htarget
    · exact absurd (h.onceQ fuel' hend') h'
  · intro h
    have hagree (fuel : Nat) (hend : Ends (load engine p.js fuel)) :
        (fuel ≠ 0 → Ends (load engine p.bc fuel)) ∧
          Agree p (final (load engine p.js fuel)) (final (load engine p.bc fuel)) := by
      rcases load_cases p fuel with ⟨h', hagree⟩ | ⟨⟨i, hi, hp⟩, -⟩
      · exact ⟨h' hend, hagree⟩
      · exact absurd (h fuel hend i hi) hp
    have hsame {m n : Nat} (hm : Ends (load engine p.js m)) (hn : Ends (load engine p.bc n)) :
        Agree p (final (load engine p.js m)) (final (load engine p.bc n)) := by
      have hjs := load_of_le engine p.js (Nat.le_max_left m n) hm
      have hbc := load_of_le engine p.bc (Nat.le_max_right m n) hn
      rw [← hjs, ← hbc]
      exact (hagree _ (by rw [hjs]; exact hm)).2
    refine ⟨fun _ => ⟨_, (hagree _ (ends_js p)).1 (Nat.succ_ne_zero _)⟩, fun m n hm hn e => ?_,
      fun fuel _ => (sourced_load p fuel).nodup, fun fuel hend => (hsame (ends_js p) hend).nodup⟩
    rw [(hsame hm hn).imports]

/-! ## A shared module -/

/-- `import"./a.js"` -/
def importA : List Byte := [105, 109, 112, 111, 114, 116, 34, 46, 47, 97, 46, 106, 115, 34]

/-- `import"./a.js";import"./b.js"` -/
def importAB : List Byte :=
  importA ++ [59, 105, 109, 112, 111, 114, 116, 34, 46, 47, 98, 46, 106, 115, 34]

/-- The requests of these sources; any other is taken for one without imports. -/
def requestsOf (source : List Byte) : List CString :=
  let a : CString := ⟨[46, 47, 97, 46, 106, 115], by decide⟩
  let b : CString := ⟨[46, 47, 98, 46, 106, 115], by decide⟩
  if source = importAB then [a, b] else if source = importA then [a] else []

/-- An engine for which bytecode is a name and a source. -/
def sourceEngine : Module.Engine where
  parse source := some (requestsOf source)
  readObject content :=
    .module ⟨content.tail.takeWhile (· ≠ 0), fun h => by simpa using List.mem_takeWhile_imp h⟩
      (requestsOf (content.tail.dropWhile (· ≠ 0)).tail)
  writeObject name source := BC_VERSION :: (name.1 ++ 0 :: source)
  parse_nil := rfl
  head_writeObject _ _ := rfl
  readObject_writeObject name source requests h := by
    have hname : ∀ c ∈ name.1, decide (c ≠ 0) = true := fun c hc =>
      decide_eq_true fun h => name.2 (h ▸ hc)
    obtain rfl : requestsOf source = requests := Option.some.inj h
    simp only [List.tail_cons, List.takeWhile_append_of_pos hname, List.dropWhile_append_of_pos hname]
    simp
    rfl

/-- `main` imports `a` and `b`, and `b` imports `a`. -/
def shared : Package sourceEngine where
  modules := [(mainStem, importAB), (⟨[97], by decide⟩, [49, 59]), (⟨[98], by decide⟩, importA)]
  compiles := fun _ _ => ⟨_, rfl⟩
  isSource := by decide

/-- The bytecode of the shared module is instantiated twice. -/
theorem shared_not_sameGraph : ¬SameGraph sourceEngine shared.js shared.bc := fun h => by
  have hend : Ends (load sourceEngine shared.bc 3) := ends_of_ok rfl
  exact absurd (h.onceQ 3 hend) (by decide)

end CkbJs.Proof.Module
