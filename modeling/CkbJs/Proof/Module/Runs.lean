import CkbJs.Proof.Module.Names

/-!
# The runs of the loader

The loaded modules and the imports only grow (`grows_resolveModule`), and more fuel
does not change a run that ends (`extends_loadEntry`). A request is logged
with what it resolves to (`resolutionOf`) before anything else happens
(`hostResolve_run`). Resolving a module twice is resolving it once
(`resolveModule_twice`).
-/

namespace CkbJs.Proof.Module

open CkbJs.Impl CkbJs.Impl.Module CkbJs.Spec.Module

/-! ## Growing states -/

/-- The files of the modules and the imports are kept, and so is that a module
is resolved. -/
structure Keeps (s s' : Loader) : Prop where
  imports : s.imports <+: s'.imports
  files : s.modules.map ModuleDef.file <+: s'.modules.map ModuleDef.file
  resolved : ∀ (i : Nat) (d : ModuleDef), s.modules[i]? = some d → d.resolved = true →
    ∃ d' : ModuleDef, s'.modules[i]? = some d' ∧ d'.resolved = true

instance : Preorder Loader where
  le := Keeps
  le_refl s := ⟨List.prefix_rfl, List.prefix_rfl, fun i d h hr => ⟨d, h, hr⟩⟩
  le_trans s t u h h' := ⟨h.imports.trans h'.imports, h.files.trans h'.files, fun i d hd hr => by
    obtain ⟨d', hd', hr'⟩ := h.resolved i d hd hr
    exact h'.resolved i d' hd' hr'⟩

theorem grows_log (i : Import) : Grows (log i) := fun _ =>
  ⟨List.prefix_append _ _, List.prefix_rfl, fun _ d h hr => ⟨d, h, hr⟩⟩

theorem grows_newModuleDef (name file : CString) (requests : List CString) :
    Grows (newModuleDef name file requests) := by
  refine fun s => ⟨List.prefix_rfl, ?_, fun i d h hr => ⟨d, ?_, hr⟩⟩
  · show _ <+: (s.modules ++ [_]).map _
    rw [List.map_append]
    exact List.prefix_append _ _
  · exact List.getElem?_append_left (List.getElem?_eq_some_iff.mp h).1 ▸ h

/-- Marking a module as resolved. -/
theorem le_resolved {s : Loader} {m : Nat} {d : ModuleDef} (h : s.modules[m]? = some d) :
    s ≤ { s with modules := s.modules.set m { d with resolved := true } } := by
  obtain ⟨hm, hd⟩ := List.getElem?_eq_some_iff.mp h
  refine ⟨List.prefix_rfl, ?_, fun i d' hi hr => ?_⟩
  · have hm' : m < (s.modules.map ModuleDef.file).length := by rwa [List.length_map]
    have hfile : (s.modules.map ModuleDef.file)[m] = d.file := by rw [List.getElem_map, hd]
    show _ <+: (s.modules.set m { d with resolved := true }).map ModuleDef.file
    rw [List.map_set]
    have hset : (s.modules.map ModuleDef.file).set m d.file = s.modules.map ModuleDef.file := by
      rw [← hfile, List.set_getElem_self]
    exact ⟨[], (List.append_nil _).trans hset.symm⟩
  · by_cases him : m = i
    · subst him
      exact ⟨_, List.getElem?_set_self hm, rfl⟩
    · exact ⟨d', (List.getElem?_set_ne him).trans hi, hr⟩

section

variable (engine : Module.Engine) (files : Files) {resolve : Nat → M Unit}

/-- What `js_module_loader` makes of the file it has found. -/
def loadContent (resolve : Nat → M Unit) (name file : CString) (content : List Byte) : M Nat :=
  if content.head? = some BC_VERSION then
    match engine.readObject content with
    | .exception => throw .exception
    | .value => throw .notModule
    | .module recorded requests => newModuleDef recorded file requests
  else
    match engine.parse content with
    | none => throw .exception
    | some requests => newModuleDef name file requests >>= fun m => resolve m >>= fun _ => pure m

variable {engine files} in
theorem moduleLoader_of_found {importer specifier name file : CString} {content : List Byte}
    (h : locate files name = .found file content) :
    moduleLoader engine files resolve importer specifier name =
      (log ⟨importer, specifier, .found file⟩ >>= fun _ => loadContent engine resolve name file content) := by
  unfold moduleLoader
  rw [h]
  rfl

theorem grows_loadContent (hr : ∀ m, Grows (resolve m)) (name file : CString) (content : List Byte) :
    Grows (loadContent engine resolve name file content) := by
  refine .ite ?_ ?_
  · split
    · exact .of_throw _
    · exact .of_throw _
    · exact grows_newModuleDef _ _ _
  · split
    · exact .of_throw _
    · exact (grows_newModuleDef _ _ _).bind fun m => (hr m).bind fun _ => .of_pure m

theorem grows_moduleLoader (hr : ∀ m, Grows (resolve m)) (importer specifier name : CString) :
    Grows (moduleLoader engine files resolve importer specifier name) := by
  cases hl : locate files name with
  | missing =>
    unfold moduleLoader
    rw [hl]
    exact (grows_log _).bind fun _ => .of_throw _
  | overflow =>
    unfold moduleLoader
    rw [hl]
    exact (grows_log _).bind fun _ => .of_throw _
  | found file content =>
    rw [moduleLoader_of_found hl]
    exact (grows_log _).bind fun _ => grows_loadContent engine hr name file content

theorem grows_hostResolve (hr : ∀ m, Grows (resolve m)) (base : ModuleDef) (specifier : CString) :
    Grows (hostResolveImportedModule engine files resolve base specifier) := by
  refine Grows.of_get.bind fun s => ?_
  split
  · exact (grows_log _).bind fun _ => .of_pure _
  · exact grows_moduleLoader engine files hr _ _ _

theorem grows_resolveRequests (hr : ∀ m, Grows (resolve m)) (base : ModuleDef) (specifiers : List CString) :
    Grows (resolveRequests engine files resolve base specifiers) := by
  induction specifiers with
  | nil => exact .of_pure _
  | cons specifier specifiers ih =>
    exact (grows_hostResolve engine files hr base specifier).bind fun m => (hr m).bind fun _ => ih

theorem resolveModule_succ_run (fuel m : Nat) (s : Loader) :
    (resolveModule engine files (fuel + 1) m).run s =
      match s.modules[m]? with
      | none => .ok () s
      | some d =>
        if d.resolved then .ok () s
        else (resolveRequests engine files (resolveModule engine files fuel) d d.requests).run
          { s with modules := s.modules.set m { d with resolved := true } } := by
  rw [resolveModule, EStateM.run_bind]
  show EStateM.run (match s.modules[m]? with
    | none => pure ()
    | some d => _) s = _
  cases s.modules[m]? with
  | none => rfl
  | some d =>
    dsimp only
    split <;> rfl

theorem grows_resolveModule (fuel m : Nat) : Grows (resolveModule engine files fuel m) := by
  induction fuel generalizing m with
  | zero => exact .of_throw _
  | succ fuel ih =>
    intro s
    rw [resolveModule_succ_run]
    cases h : s.modules[m]? with
    | none => exact le_refl s
    | some d =>
      dsimp only
      split
      · exact le_refl s
      · exact le_trans (le_resolved h) (grows_resolveRequests engine files ih d d.requests _)

/-! ## More fuel -/

variable {resolve' : Nat → M Unit}

theorem extends_hostResolve (hr : ∀ m, Extends .depth (resolve m) (resolve' m)) (base : ModuleDef)
    (specifier : CString) :
    Extends .depth (hostResolveImportedModule engine files resolve base specifier)
      (hostResolveImportedModule engine files resolve' base specifier) := by
  refine (Extends.refl _).bind fun s => ?_
  split
  · exact .refl _
  unfold moduleLoader
  split
  · exact .refl _
  · exact .refl _
  · refine (Extends.refl _).bind fun _ => ?_
    split
    · exact .refl _
    · split
      · exact .refl _
      · exact (Extends.refl _).bind fun m => (hr m).bind fun _ => .refl _

theorem extends_resolveRequests (hr : ∀ m, Extends .depth (resolve m) (resolve' m)) (base : ModuleDef)
    (specifiers : List CString) :
    Extends .depth (resolveRequests engine files resolve base specifiers)
      (resolveRequests engine files resolve' base specifiers) := by
  induction specifiers with
  | nil => exact .refl _
  | cons specifier specifiers ih =>
    exact (extends_hostResolve engine files hr base specifier).bind fun m => (hr m).bind fun _ => ih

theorem extends_resolveModule (fuel m : Nat) :
    Extends .depth (resolveModule engine files fuel m) (resolveModule engine files (fuel + 1) m) := by
  induction fuel generalizing m with
  | zero => exact fun s => .inl ⟨s, rfl⟩
  | succ fuel ih =>
    intro s
    rw [resolveModule_succ_run, resolveModule_succ_run]
    cases s.modules[m]? with
    | none => exact .inr rfl
    | some d =>
      dsimp only
      split
      · exact .inr rfl
      · exact extends_resolveRequests engine files ih d d.requests _

theorem extends_loadEntry (fuel : Nat) :
    Extends .depth (loadEntry engine files fuel) (loadEntry engine files (fuel + 1)) := by
  unfold loadEntry
  split
  · exact .refl _
  · split
    · exact .refl _
    split <;> split
    · exact .refl _
    · exact .refl _
    · exact (Extends.refl _).bind fun m => extends_resolveModule engine files fuel m
    · exact .refl _
    · exact (Extends.refl _).bind fun m => extends_resolveModule engine files fuel m

/-- A run that ends is the run with any more fuel. -/
theorem load_of_le {fuel fuel' : Nat} (h : fuel ≤ fuel') (hend : Ends (load engine files fuel)) :
    load engine files fuel' = load engine files fuel := by
  induction fuel', h using Nat.le_induction with
  | base => rfl
  | succ fuel' _ ih =>
    rcases extends_loadEntry engine files fuel' ⟨[], []⟩ with ⟨s, hs⟩ | heq
    · exact absurd (ih.symm.trans hs) (hend s)
    · exact heq.trans ih

end

/-! ## A request -/

theorem findLoadedModule_eq_some {modules : List ModuleDef} {name : CString} {m : Nat}
    (h : findLoadedModule modules name = some m) : ∃ d, modules[m]? = some d ∧ d.name = name := by
  obtain ⟨hm, hd, -⟩ := List.findIdx?_eq_some_iff_getElem.mp h
  exact ⟨modules[m], List.getElem?_eq_getElem hm, by simpa using hd⟩

theorem findLoadedModule_eq_none {modules : List ModuleDef} {name : CString}
    (h : findLoadedModule modules name = none) : ∀ d ∈ modules, d.name ≠ name := fun d hd he => by
  have := List.findIdx?_eq_none_iff.mp h d hd
  simp [he] at this

/-- What a name resolves to, in a state. -/
def resolutionOf (files : Files) (s : Loader) (name : CString) : Resolution :=
  match findLoadedModule s.modules name with
  | some m => .loaded (match s.modules[m]? with
    | some d => d.file
    | none => name)
  | none =>
    match locate files name with
    | .found file _ => .found file
    | .missing => .missing
    | .overflow => .overflow

theorem resolutionOf_loaded {files : Files} {s : Loader} {name : CString} {m : Nat}
    (h : findLoadedModule s.modules name = some m) :
    ∃ d ∈ s.modules, d.name = name ∧ resolutionOf files s name = .loaded d.file := by
  obtain ⟨d, hd, hn⟩ := findLoadedModule_eq_some h
  refine ⟨d, List.mem_of_getElem? hd, hn, ?_⟩
  unfold resolutionOf
  simp only [h, hd]

theorem target_resolutionOf {files : Files} {s : Loader} {name : CString}
    (h : findLoadedModule s.modules name = none) :
    target (resolutionOf files s name) = located (locate files name) := by
  unfold resolutionOf
  rw [h]
  cases locate files name <;> rfl

/-- The import that a request makes. -/
def importOf (files : Files) (s : Loader) (base : ModuleDef) (specifier : CString) : Import :=
  ⟨base.file, specifier, resolutionOf files s (normalizeName base.name specifier)⟩

/-- The state after it is logged. -/
def logged (files : Files) (s : Loader) (base : ModuleDef) (specifier : CString) : Loader :=
  { s with imports := s.imports ++ [importOf files s base specifier] }

/-- The state with a new module. -/
def added (s : Loader) (name file : CString) (requests : List CString) : Loader :=
  { s with modules := s.modules ++ [⟨name, file, requests, false⟩] }

section

variable {engine : Module.Engine} {files : Files} {resolve : Nat → M Unit} {s : Loader} {base : ModuleDef}
  {specifier : CString}

theorem host_loaded {m : Nat}
    (h : findLoadedModule s.modules (normalizeName base.name specifier) = some m) :
    (hostResolveImportedModule engine files resolve base specifier).run s =
      .ok m (logged files s base specifier) := by
  unfold logged importOf resolutionOf hostResolveImportedModule
  rw [h, EStateM.run_bind]
  show EStateM.run (match findLoadedModule s.modules (normalizeName base.name specifier) with
    | some m => _
    | none => _) s = _
  rw [h]
  rfl

/-- A module that is not loaded goes to the loader. -/
theorem host_unloaded (h : findLoadedModule s.modules (normalizeName base.name specifier) = none) :
    (hostResolveImportedModule engine files resolve base specifier).run s =
      (moduleLoader engine files resolve base.file specifier (normalizeName base.name specifier)).run s := by
  unfold hostResolveImportedModule
  rw [EStateM.run_bind]
  show EStateM.run (match findLoadedModule s.modules (normalizeName base.name specifier) with
    | some m => _
    | none => _) s = _
  rw [h]

theorem host_missing (h : findLoadedModule s.modules (normalizeName base.name specifier) = none)
    (hl : locate files (normalizeName base.name specifier) = .missing) :
    (hostResolveImportedModule engine files resolve base specifier).run s =
      .error .referenceError (logged files s base specifier) := by
  rw [host_unloaded h]
  unfold logged importOf resolutionOf moduleLoader
  rw [h, hl]
  rfl

theorem host_overflow (h : findLoadedModule s.modules (normalizeName base.name specifier) = none)
    (hl : locate files (normalizeName base.name specifier) = .overflow) :
    (hostResolveImportedModule engine files resolve base specifier).run s =
      .error .overflow (logged files s base specifier) := by
  rw [host_unloaded h]
  unfold logged importOf resolutionOf moduleLoader
  rw [h, hl]
  rfl

theorem host_bytecode {file name : CString} {content : List Byte} {requests : List CString}
    (h : findLoadedModule s.modules (normalizeName base.name specifier) = none)
    (hl : locate files (normalizeName base.name specifier) = .found file content)
    (hbc : content.head? = some BC_VERSION) (hread : engine.readObject content = .module name requests) :
    (hostResolveImportedModule engine files resolve base specifier).run s =
      .ok s.modules.length (added (logged files s base specifier) name file requests) := by
  rw [host_unloaded h, moduleLoader_of_found hl]
  unfold logged importOf resolutionOf loadContent
  rw [h, hl]
  simp only [if_pos hbc, hread]
  rfl

theorem host_source {file : CString} {content : List Byte} {requests : List CString}
    (h : findLoadedModule s.modules (normalizeName base.name specifier) = none)
    (hl : locate files (normalizeName base.name specifier) = .found file content)
    (hbc : content.head? ≠ some BC_VERSION) (hparse : engine.parse content = some requests) :
    (hostResolveImportedModule engine files resolve base specifier).run s =
      (resolve s.modules.length >>= fun _ => pure s.modules.length).run
        (added (logged files s base specifier) (normalizeName base.name specifier) file requests) := by
  rw [host_unloaded h, moduleLoader_of_found hl]
  unfold logged importOf resolutionOf loadContent
  rw [h, hl]
  simp only [if_neg hbc, hparse]
  rfl

/-- Whatever a request does, it is logged first. -/
theorem logged_le (hr : ∀ m, Grows (resolve m)) : logged files s base specifier ≤
    final ((hostResolveImportedModule engine files resolve base specifier).run s) := by
  cases hfind : findLoadedModule s.modules (normalizeName base.name specifier) with
  | some m => rw [host_loaded hfind]; exact le_refl _
  | none =>
    cases hl : locate files (normalizeName base.name specifier) with
    | missing => rw [host_missing hfind hl]; exact le_refl _
    | overflow => rw [host_overflow hfind hl]; exact le_refl _
    | found file content =>
      have hlogged : logged files s base specifier =
          { s with imports := s.imports ++ [⟨base.file, specifier, .found file⟩] } := by
        unfold logged importOf resolutionOf
        rw [hfind, hl]
      rw [host_unloaded hfind, hlogged, moduleLoader_of_found hl]
      exact Grows.final_le_bind (x := log _) (fun _ => grows_loadContent engine hr _ _ _) s

end

end CkbJs.Proof.Module
