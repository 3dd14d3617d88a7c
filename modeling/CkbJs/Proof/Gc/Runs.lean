import CkbJs.Proof.Gc.Collect

/-!
# Heaps between operations

Every operation of the engine leaves a heap in which the counts are those of
the references (`Accurate`), whatever ran before (`accurate_of_reachable`).
`JS_RunGC` leaves exactly the reachable objects (`jsRunGC_collects`); the
release of a reference never takes a reachable object, and without cycles it
leaves no other (`freeRef_releases`). All of it needs the references to be
counted: `jsRunGC_openHeap` and `freeRef_weakHeap` are runs where some are not.
-/

namespace CkbJs.Proof.Gc

open CkbJs.Heap CkbJs.Impl.Gc CkbJs.Spec.Gc

variable {body : Ptr → Body} {roots rest live P H : List Ptr} {rt rt' : JSRuntime} {p q : Ptr} {o : GcObject}

/-! ## Two views of a heap -/

theorem bodyAt_of_some (ho : rt.objs p = some o) : bodyAt rt p = o.body := by
  rw [bodyAt, ho]
  rfl

theorem bodyAt_of_none (ho : rt.objs p = none) : bodyAt rt p = .shape none := by
  rw [bodyAt, ho]
  rfl

theorem regular_congr {t t' : Ptr → GcObjType} {b : Body} (h : ∀ c ∈ children b, t' c = t c)
    (hr : Regular t b) : Regular t' b := by
  refine ⟨?_, hr.strong⟩
  have hb := hr.typed
  cases b with
  | jsObject obj =>
    obtain ⟨sh, hshape, hsh⟩ := hb
    exact ⟨sh, hshape, (h sh (by simp [children, hshape])).trans hsh⟩
  | functionBytecode cpool realm =>
    refine ⟨fun c hc => ?_, fun c hc => ?_⟩ <;> rw [h c (by simp [children, hc])]
    · exact hb.1 c hc
    · exact hb.2 c hc
  | shape proto =>
    intro c hc
    rw [h c hc]
    exact hb c hc
  | varRef pvalue =>
    intro c hc
    rw [h c hc]
    exact hb c hc
  | openVarRef => exact hr.strong.elim
  | asyncFunction funcState resolvingFuncs =>
    intro c hc
    rw [h c hc]
    exact hb c hc
  | jsContext loadedModules values arrayShape =>
    refine ⟨fun c hc => ?_, fun c hc => ?_, fun c hc => ?_⟩ <;> rw [h c (by simp [children, hc])]
    · exact hb.1 c hc
    · exact hb.2.1 c hc
    · exact hb.2.2 c hc

theorem due_congr {body' : Ptr → Body} (h : ∀ q ∈ H, children (body' q) = children (body q)) (p : Ptr) :
    due body' roots H p = due body roots H p := by
  simp only [due, owed, List.flatMap_def, List.map_congr_left h]

theorem regular_shape (t : Ptr → GcObjType) : Regular t (.shape none) := by
  refine ⟨?_, trivial⟩
  rintro c ⟨⟩

theorem regular_ofRefs {t : Ptr → GcObjType} {sh : Ptr} {prop data : List Ptr} (h : t sh = .shape) :
    Regular t (.jsObject (.ofRefs (some sh) prop data)) := by
  refine ⟨⟨sh, rfl, h⟩, ?_, rfl, rfl⟩
  rintro s ⟨⟩

theorem regular_bodyAt (h : Accurate rt roots) (p : Ptr) :
    Regular (fun q => (bodyAt rt q).type) (bodyAt rt p) := by
  rcases ho : rt.objs p with _ | o
  · rw [bodyAt_of_none ho]
    exact regular_shape _
  · rw [bodyAt_of_some ho]
    exact h.regular p o ho

theorem settled_of_accurate (h : Accurate rt roots) : Settled (bodyAt rt) roots rt.gcObjList rt := by
  refine ⟨rfl, h.tmp, h.zero, h.phase, h.nodup, fun p hp => ?_, fun p hp => ?_⟩
  · obtain ⟨o, ho⟩ := Option.isSome_iff_exists.1 ((h.mem_iff p).1 hp)
    obtain ⟨hc, hpos, hm⟩ := h.counts p o ho
    have hc : o.refCount = due (bodyAt rt) roots rt.gcObjList p := hc
    rw [ho, ← hc, ← hm, bodyAt_of_some ho]
    exact ⟨rfl, by omega⟩
  · have ho : rt.objs p = none := by
      rw [h.mem_iff, Live, Bool.not_eq_true, Option.isSome_eq_false_iff, Option.isNone_iff_eq_none] at hp
      exact hp
    exact ⟨ho, h.dangling p ho⟩

namespace Settled

theorem live_iff (h : Settled body roots live rt) (p : Ptr) : Live rt p ↔ p ∈ live := by
  by_cases hp : p ∈ live
  · simp [Live, (h.objs p hp).1, hp]
  · simp [Live, (h.absent p hp).1, hp]

theorem bodyAt (h : Settled body roots live rt) (hp : p ∈ live) : bodyAt rt p = body p :=
  bodyAt_of_some (h.objs p hp).1

/-- The references of the live objects are to live objects. -/
theorem closed (h : Settled body roots live rt) (hq : q ∈ live) {c : Ptr} (hc : c ∈ children (body q)) :
    c ∈ live := by
  by_contra hn
  exact (owed_eq_zero_iff.1 (h.absent c hn).2).2 q hq hc

theorem root_mem (h : Settled body roots live rt) (hp : p ∈ roots) : p ∈ live := by
  by_contra hn
  exact (owed_eq_zero_iff.1 (h.absent p hn).2).1 hp

theorem due_eq (h : Settled body roots live rt) (p : Ptr) :
    owed (childrenAt rt) roots live p = due body roots live p :=
  due_congr (fun q hq => by rw [h.bodyAt hq]) p

theorem accurate (h : Settled body roots live rt) (hT : ∀ p, Regular (fun q => (body q).type) (body p)) :
    Accurate rt roots := by
  refine ⟨h.phase, h.tmp, h.zero, h.gc ▸ h.nodup, fun p => ?_, fun p o ho => ?_, fun p ho => ?_,
    fun p o ho => ?_⟩
  · rw [h.gc, h.live_iff]
  · have hp : p ∈ live := (h.live_iff p).1 (by simp [Live, ho])
    obtain ⟨ho', hpos⟩ := h.objs p hp
    cases ho.symm.trans ho'
    rw [h.gc, h.due_eq]
    refine ⟨rfl, ?_, rfl⟩
    show (0 : Int) < due body roots live p
    omega
  · have hp : p ∉ live := fun hp => by simp [(h.objs p hp).1] at ho
    rw [h.gc, h.due_eq]
    exact (h.absent p hp).2
  · have hp : p ∈ live := (h.live_iff p).1 (by simp [Live, ho])
    cases ho.symm.trans (h.objs p hp).1
    refine regular_congr (fun c hc => ?_) (hT p)
    rw [typeAt, h.bodyAt (h.closed hp hc)]

theorem inv (h : Settled body (P ++ roots) live rt) : Inv body roots P live rt := by
  have hlinked : rt.linked = live := by simp [JSRuntime.linked, h.gc, h.tmp, h.zero]
  have hobj : ∀ p o, rt.objs p = some o → p ∈ live ∧ o = ⟨due body (P ++ roots) live p, false, body p⟩ := by
    intro p o ho
    have hp : p ∈ live := (h.live_iff p).1 (by simp [Live, ho])
    exact ⟨hp, Option.some.inj (ho.symm.trans (h.objs p hp).1)⟩
  refine ⟨⟨hlinked ▸ h.nodup, fun p => ?_, h.nodup, fun p hp => hlinked ▸ hp, fun p o ho => ?_, fun p ho => ?_,
    fun p _ o ho => ?_, fun p o ho => ?_, fun p _ o ho => ?_⟩, fun p hp hn => absurd (hlinked ▸ hp) hn,
    fun p hp _ => (h.objs p hp).2, fun _ => ⟨h.tmp, fun p hp => ?_⟩, fun _ => h.zero, fun hc => ?_⟩
  · rw [hlinked, ← h.live_iff, Live, Option.isSome_iff_exists]
  · rw [(hobj p o ho).2]
  · exact (h.absent p fun hp => by simp [(h.objs p hp).1] at ho).2
  · rw [(hobj p o ho).2]
  · rw [(hobj p o ho).2]
  · rw [(hobj p o ho).2]
  · exact iff_of_true (h.gc ▸ hp) (h.objs p hp).2
  · rw [h.phase] at hc
    cases hc

end Settled

theorem Inv.settled (h : Inv body roots [] H rt) (hph : rt.gcPhase = .none) (hH : ∀ q ∈ rt.linked, q ∈ H) :
    Settled body roots rt.gcObjList rt := by
  have ⟨htmp, hfall⟩ := h.falling (by rw [hph]; rintro ⟨⟩)
  have hzero := h.quiet hph
  have hlinked : rt.linked = rt.gcObjList := by simp [JSRuntime.linked, htmp, hzero]
  have hnd := h.nodup
  rw [hlinked] at hnd hH
  have hperm : H.Perm rt.gcObjList :=
    (List.perm_ext_iff_of_nodup h.holders hnd).2 fun p => ⟨fun hp => hlinked ▸ h.held p hp, hH p⟩
  have hdue : ∀ p, due body ([] ++ roots) H p = due body roots rt.gcObjList p := fun p =>
    owed_perm_holders hperm roots p
  refine ⟨rfl, htmp, hzero, hph, hnd, fun p hp => ?_, fun p hp => ?_⟩
  · obtain ⟨o, ho⟩ := (h.linked_iff p).1 (hlinked ▸ hp)
    have hc := h.counts p o ho
    have hm := h.marks p hp o ho
    have hb := h.bodies p (hH p hp) o ho
    rw [hdue] at hc
    rcases o with ⟨n, m, b⟩
    simp only at hc hm hb
    rw [ho, hc, hm, hb, ← hdue]
    exact ⟨rfl, (hfall p (hH p hp)).1 hp⟩
  · have ho : rt.objs p = none := by
      rcases ho : rt.objs p with _ | o
      · rfl
      · exact absurd (hlinked ▸ (h.linked_iff p).2 ⟨o, ho⟩) hp
    rw [← hdue]
    exact ⟨ho, h.dangling p ho⟩

/-! ## Collecting and releasing -/

theorem wp_jsRunGC_collects {fuel : Nat} (h : Accurate rt roots) (hf : enough rt ≤ fuel) :
    WP (jsRunGC fuel) rt (fun _ rt' => Accurate rt' roots ∧
      (∀ p, Live rt' p ↔ Reach (childrenAt rt) roots p) ∧
      ∀ p, Live rt' p → Spec.Gc.bodyAt rt' p = Spec.Gc.bodyAt rt p) fun _ _ => False := by
  have hT := regular_bodyAt h
  have hfuel : rt.gcObjList.length + 3 ≤ fuel := by rw [enough] at hf; omega
  refine (wp_jsRunGC hT (settled_of_accurate h) hfuel).mono ?_ fun _ _ h => h
  rintro - rt' ⟨live, hs, hlive⟩
  refine ⟨hs.accurate hT, fun p => ?_, fun p hp => hs.bodyAt ((hs.live_iff p).1 hp)⟩
  rw [hs.live_iff, hlive]
  rfl

/-- `JS_RunGC` does not stop, keeps the counts accurate, and leaves the
reachable objects as they are and no others. -/
theorem jsRunGC_collects {fuel : Nat} (h : Accurate rt roots) (hf : enough rt ≤ fuel) :
    ∃ rt', (jsRunGC fuel).run rt = .ok ⟨⟩ rt' ∧ Accurate rt' roots ∧
      (∀ p, Live rt' p ↔ Reach (childrenAt rt) roots p) ∧
      ∀ p, Live rt' p → bodyAt rt' p = bodyAt rt p := by
  obtain ⟨⟨⟩, rt', hrun, hc⟩ := (wp_jsRunGC_collects h hf).exists_ok
  exact ⟨rt', hrun, hc⟩

/-- A suspended generator and an object that refer to each other, with the
shape they share. -/
def cycleHeap : JSRuntime where
  objs p := [⟨2, false, .shape none⟩, ⟨1, false, .jsObject ⟨some 0, [], [], some ⟨[], [], [2]⟩, [], []⟩⟩,
    ⟨1, false, .jsObject (.ofRefs (some 0) [1] [])⟩][p]?
  gcObjList := [0, 1, 2]
  tmpObjList := []
  gcZeroRefCountList := []
  gcPhase := .none

theorem accurate_cycleHeap : Accurate cycleHeap [] where
  phase := rfl
  tmp := rfl
  zero := rfl
  nodup := by decide
  mem_iff p := by rcases p with _ | _ | _ | p <;> simp [cycleHeap, Live]
  counts p o ho := by
    rcases p with _ | _ | _ | p <;> cases ho <;> decide
  dangling p ho := by
    rcases p with _ | _ | _ | p
    · cases ho
    · cases ho
    · cases ho
    · simp [owed, cycleHeap, childrenAt, bodyAt, children, JSObject.ofRefs, frameValues, Option.toList]
  regular p o ho := by
    rcases p with _ | _ | _ | p <;> cases ho
    · exact regular_shape _
    · refine ⟨⟨0, rfl, rfl⟩, ?_, rfl, rfl⟩
      rintro s ⟨⟩
      rfl
    · exact regular_ofRefs rfl

theorem jsRunGC_collects_cycleHeap :
    ∃ rt', (jsRunGC 9).run cycleHeap = .ok ⟨⟩ rt' ∧ Accurate rt' [] ∧
      (∀ p, Live rt' p ↔ Reach (childrenAt cycleHeap) [] p) ∧
      ∀ p, Live rt' p → bodyAt rt' p = bodyAt cycleHeap p :=
  jsRunGC_collects accurate_cycleHeap (by decide)

/-- The objects at `ps` after a run. -/
def objsAfter (x : M Unit) (rt : JSRuntime) (ps : List Ptr) : Option (List (Option GcObject)) :=
  match x.run rt with
  | .ok _ rt' => some (ps.map rt'.objs)
  | .error .. => none

theorem exists_of_objsAfter {x : M Unit} {ps : List Ptr} {l : List (Option GcObject)}
    (h : objsAfter x rt ps = some l) : ∃ rt', x.run rt = .ok ⟨⟩ rt' ∧ ps.map rt'.objs = l := by
  unfold objsAfter at h
  split at h
  · exact ⟨_, ‹_›, Option.some.inj h⟩
  · cases h

/-- A suspended generator that refers to itself, with an object in a variable;
a closure held from outside refers to the variable. -/
def openHeap : JSRuntime where
  objs p := [⟨3, false, .shape none⟩, ⟨1, false, .jsObject ⟨some 0, [1], [], some ⟨[4], [], [2]⟩, [], []⟩⟩,
    ⟨1, false, .jsObject (.ofRefs (some 0) [] [])⟩, ⟨1, false, .jsObject (.ofRefs (some 0) [] [4])⟩,
    ⟨1, false, .openVarRef (some 2) 1⟩][p]?
  gcObjList := [0, 1, 2, 3]
  tmpObjList := []
  gcZeroRefCountList := []
  gcPhase := .none

/-- Why the objects must be `Strong`: the variable takes its reference when the
generator is freed, and then its value is freed too. -/
theorem jsRunGC_openHeap :
    ∃ rt', (jsRunGC 10).run openHeap = .ok ⟨⟩ rt' ∧ bodyAt rt' 4 = .varRef (some 2) ∧ ¬ Live rt' 2 := by
  have h : objsAfter (jsRunGC 10) openHeap [4, 2] = some [some ⟨1, false, .varRef (some 2)⟩, none] := by
    decide +kernel
  obtain ⟨rt', hrun, hobjs⟩ := exists_of_objsAfter h
  simp only [List.map_cons, List.map_nil, List.cons.injEq, and_true] at hobjs
  exact ⟨rt', hrun, bodyAt_of_some hobjs.1, by simp [Live, hobjs.2]⟩

theorem wp_freeRef_releases {fuel : Nat} (h : Accurate rt (p :: roots)) (hf : enough rt ≤ fuel) :
    WP (freeRef fuel p) rt (fun _ rt' => Accurate rt' roots ∧
      (∀ q, Live rt' q → Live rt q ∧ bodyAt rt' q = bodyAt rt q) ∧
      (∀ q, Reach (childrenAt rt) roots q → Live rt' q) ∧
      (WellFounded (fun q c => q ∈ rt.gcObjList ∧ c ∈ childrenAt rt q) →
        ∀ q, Live rt' q → Reach (childrenAt rt) roots q)) fun _ _ => False := by
  have hT := regular_bodyAt h
  have hs := settled_of_accurate h
  have hd : depth (bodyAt rt p).type < 4 := by cases (bodyAt rt p).type <;> decide
  have hfree := @frees_freeRef_outer _ roots hT _ _ 4 hf p hd
  have hi : Inv (bodyAt rt) roots ([p] ++ []) rt.gcObjList rt := Settled.inv (P := [p]) hs
  refine (hfree [] _ rt hi ⟨h.phase, Nat.le_refl _⟩).mono ?_ fun _ _ h => h
  rintro - rt' ⟨H, hi', hfr⟩
  have hlinked : rt.linked = rt.gcObjList := by simp [JSRuntime.linked, h.tmp, h.zero]
  have hall : ∀ q ∈ rt'.linked, q ∈ H := fun q hq =>
    (hfr.new q hq).resolve_right fun hc => hc.2 (hlinked ▸ hc.1)
  have hs' := hi'.settled (hfr.phase.trans h.phase) hall
  have hsub : ∀ q ∈ rt'.gcObjList, q ∈ rt.gcObjList := fun q hq =>
    hfr.holders.subset (hall q (mem_linked.2 (.inl hq)))
  refine ⟨hs'.accurate hT, fun q hq => ?_, fun q hq => ?_, fun hwf q hq => ?_⟩
  · rw [hs'.live_iff] at hq
    exact ⟨(hs.live_iff q).2 (hsub q hq), hs'.bodyAt hq⟩
  · rw [hs'.live_iff]
    exact hq.mem (fun r hr => hs'.root_mem hr) fun r hr c hc => hs'.closed hr hc
  · rw [hs'.live_iff] at hq
    refine reach_of_wellFounded (H := rt'.gcObjList) ?_ (fun r hr => (hs'.objs r hr).2) hq
    exact Subrelation.wf (fun hr => ⟨hsub _ hr.1, hr.2⟩) hwf

/-- The release of a reference from outside does not stop, keeps the counts
accurate and the remaining objects as they are, and takes no object that is
still reachable; where references close no cycle, it takes all others. -/
theorem freeRef_releases {fuel : Nat} (h : Accurate rt (p :: roots)) (hf : enough rt ≤ fuel) :
    ∃ rt', (freeRef fuel p).run rt = .ok ⟨⟩ rt' ∧ Accurate rt' roots ∧
      (∀ q, Live rt' q → Live rt q ∧ bodyAt rt' q = bodyAt rt q) ∧
      (∀ q, Reach (childrenAt rt) roots q → Live rt' q) ∧
      (WellFounded (fun q c => q ∈ rt.gcObjList ∧ c ∈ childrenAt rt q) →
        ∀ q, Live rt' q → Reach (childrenAt rt) roots q) := by
  obtain ⟨⟨⟩, rt', hrun, hc⟩ := (wp_freeRef_releases h hf).exists_ok
  exact ⟨rt', hrun, hc⟩

/-- An object that holds another one and its shape, held from outside. -/
def chainHeap : JSRuntime where
  objs p := [⟨2, false, .shape none⟩, ⟨1, false, .jsObject (.ofRefs (some 0) [2] [])⟩,
    ⟨1, false, .jsObject (.ofRefs (some 0) [] [])⟩][p]?
  gcObjList := [0, 1, 2]
  tmpObjList := []
  gcZeroRefCountList := []
  gcPhase := .none

theorem accurate_chainHeap : Accurate chainHeap [1] where
  phase := rfl
  tmp := rfl
  zero := rfl
  nodup := by decide
  mem_iff p := by rcases p with _ | _ | _ | p <;> simp [chainHeap, Live]
  counts p o ho := by
    rcases p with _ | _ | _ | p <;> cases ho <;> decide
  dangling p ho := by
    rcases p with _ | _ | _ | p
    · cases ho
    · cases ho
    · cases ho
    · simp [owed, chainHeap, childrenAt, bodyAt, children, JSObject.ofRefs, frameValues, Option.toList]
  regular p o ho := by
    rcases p with _ | _ | _ | p <;> cases ho
    · exact regular_shape _
    · exact regular_ofRefs rfl
    · exact regular_ofRefs rfl

theorem freeRef_releases_chainHeap :
    ∃ rt', (freeRef 9 1).run chainHeap = .ok ⟨⟩ rt' ∧ Accurate rt' [] ∧
      (∀ q, Live rt' q → Live chainHeap q ∧ bodyAt rt' q = bodyAt chainHeap q) ∧
      (∀ q, Reach (childrenAt chainHeap) [] q → Live rt' q) ∧
      (WellFounded (fun q c => q ∈ chainHeap.gcObjList ∧ c ∈ childrenAt chainHeap q) →
        ∀ q, Live rt' q → Reach (childrenAt chainHeap) [] q) :=
  freeRef_releases accurate_chainHeap (by decide)

/-- A weak map held from outside, with a record for an object. -/
def weakHeap : JSRuntime where
  objs p := [⟨3, false, .shape none⟩, ⟨1, false, .jsObject ⟨some 0, [], [], none, [], [3]⟩⟩,
    ⟨1, false, .jsObject (.ofRefs (some 0) [] [])⟩,
    ⟨1, false, .jsObject ⟨some 0, [], [], none, [⟨1, some 2⟩], []⟩⟩][p]?
  gcObjList := [0, 1, 2, 3]
  tmpObjList := []
  gcZeroRefCountList := []
  gcPhase := .none

/-- With the key, the value that the map holds goes. -/
theorem freeRef_weakHeap :
    ∃ rt', (freeRef 10 1).run weakHeap = .ok ⟨⟩ rt' ∧ Reach (childrenAt weakHeap) [3] 2 ∧ ¬ Live rt' 2 := by
  have h : objsAfter (freeRef 10 1) weakHeap [2] = some [none] := by decide +kernel
  obtain ⟨rt', hrun, hobjs⟩ := exists_of_objsAfter h
  simp only [List.map_cons, List.map_nil, List.cons.injEq, and_true] at hobjs
  exact ⟨rt', hrun, .child (.root List.mem_cons_self) (by decide), by simp [Live, hobjs]⟩

/-! ## Runs -/

theorem accurate_initial : Accurate initial [] where
  phase := rfl
  tmp := rfl
  zero := rfl
  nodup := List.nodup_nil
  mem_iff p := by simp [initial, Live]
  counts p o ho := by simp [initial] at ho
  dangling p _ := by simp [initial, owed]
  regular p o ho := by simp [initial] at ho

theorem Accurate.of_perm (h : Accurate rt roots) (hr : roots.Perm rest) : Accurate rt rest :=
  { h with
    counts := fun p o ho => by rw [← owed_perm_roots hr]; exact h.counts p o ho
    dangling := fun p ho => by rw [← owed_perm_roots hr]; exact h.dangling p ho }

theorem Accurate.live_of_reach (h : Accurate rt roots) (hp : Reach (childrenAt rt) roots p) : Live rt p := by
  have hs := settled_of_accurate h
  rw [hs.live_iff]
  exact hp.mem (fun r hr => hs.root_mem hr) fun r hr c hc => hs.closed hr hc

theorem accurate_new {b : Body} (h : Accurate rt roots) (hp : rt.objs p = none) (hb : Regular (typeAt rt) b)
    (hr : roots.Perm (children b ++ rest)) :
    Accurate { rt.store p ⟨1, false, b⟩ with gcObjList := rt.gcObjList ++ [p] } (p :: rest) := by
  have hs := settled_of_accurate h
  have hpl : p ∉ rt.gcObjList := by
    rw [h.mem_iff]
    simp [Live, hp]
  let body := Function.update (bodyAt rt) p b
  have hbody : ∀ q, q ≠ p → body q = bodyAt rt q := fun q hq => Function.update_of_ne hq ..
  have hbp : body p = b := Function.update_self ..
  have hdue : ∀ q, due body (p :: rest) (rt.gcObjList ++ [p]) q = due (bodyAt rt) (p :: roots) rt.gcObjList q := by
    intro q
    rw [due, owed_concat, hbp]
    refine (due_congr (fun r hr => ?_) q).trans (due_perm ?_ _ q)
    · rw [hbody r (ne_of_mem_of_not_mem hr hpl)]
    · exact List.perm_middle.trans (hr.symm.cons p)
  have hsettled : Settled body (p :: rest) (rt.gcObjList ++ [p])
      { rt.store p ⟨1, false, b⟩ with gcObjList := rt.gcObjList ++ [p] } := by
    refine ⟨rfl, h.tmp, h.zero, h.phase, ?_, fun q hq => ?_, fun q hq => ?_⟩
    · rw [← List.concat_eq_append]
      exact h.nodup.concat hpl
    · rw [hdue]
      rcases eq_or_ne q p with rfl | hne
      · have h0 : due (bodyAt rt) roots rt.gcObjList q = 0 := (hs.absent q hpl).2
        rw [due_cons_self, h0, hbp]
        exact ⟨store_self .., by omega⟩
      · rw [due_cons_of_ne hne, hbody q hne]
        have hq : q ∈ rt.gcObjList := by simpa [hne] using hq
        exact ⟨(store_of_ne hne _).trans (hs.objs q hq).1, (hs.objs q hq).2⟩
    · rw [List.mem_append, List.mem_singleton, not_or] at hq
      rw [hdue, due_cons_of_ne hq.2]
      exact ⟨(store_of_ne hq.2 _).trans (hs.absent q hq.1).1, (hs.absent q hq.1).2⟩
  refine hsettled.accurate fun q => ?_
  have htype : ∀ c, c ≠ p → (body c).type = typeAt rt c := fun c hc => by rw [hbody c hc, typeAt]
  rcases eq_or_ne q p with rfl | hne
  · rw [hbp]
    refine regular_congr (fun c hc => htype c ?_) hb
    exact ne_of_mem_of_not_mem (hs.root_mem (hr.mem_iff.2 (List.mem_append_left _ hc))) hpl
  · rw [hbody q hne]
    refine regular_congr (fun c hc => htype c ?_) (regular_bodyAt h q)
    by_cases hq : q ∈ rt.gcObjList
    · exact ne_of_mem_of_not_mem (hs.closed hq hc) hpl
    · rw [bodyAt_of_none (hs.absent q hq).1] at hc
      cases hc

theorem accurate_dup (h : Accurate rt roots) (ho : rt.objs p = some o) :
    Accurate (rt.store p { o with refCount := o.refCount + 1 }) (p :: roots) := by
  have hs := settled_of_accurate h
  have hp : p ∈ rt.gcObjList := (h.mem_iff p).2 (by simp [Live, ho])
  refine @Settled.accurate (bodyAt rt) _ rt.gcObjList _ ?_ (regular_bodyAt h)
  refine ⟨rfl, h.tmp, h.zero, h.phase, h.nodup, fun q hq => ?_, fun q hq => ?_⟩
  · rcases eq_or_ne q p with rfl | hne
    · cases ho.symm.trans (hs.objs q hp).1
      rw [due_cons_self]
      exact ⟨store_self .., by omega⟩
    · rw [due_cons_of_ne hne]
      exact ⟨(store_of_ne hne _).trans (hs.objs q hq).1, (hs.objs q hq).2⟩
  · have hne : q ≠ p := fun he => hq (he ▸ hp)
    rw [due_cons_of_ne hne]
    exact ⟨(store_of_ne hne _).trans (hs.absent q hq).1, (hs.absent q hq).2⟩

theorem accurate_move {b : Body} (h : Accurate rt roots) (ho : rt.objs q = some o) (ht : b.type = o.body.type)
    (hb : Regular (typeAt rt) b) (hr : (children o.body ++ roots).Perm (children b ++ rest)) :
    Accurate (rt.store q { o with body := b }) rest := by
  have hs := settled_of_accurate h
  have hq : q ∈ rt.gcObjList := (h.mem_iff q).2 (by simp [Live, ho])
  have hbq := bodyAt_of_some ho
  let body := Function.update (bodyAt rt) q b
  have hbody : ∀ r, r ≠ q → body r = bodyAt rt r := fun r hr => Function.update_of_ne hr ..
  have hbq' : body q = b := Function.update_self ..
  have hdue : ∀ r, due body rest rt.gcObjList r = due (bodyAt rt) roots rt.gcObjList r := by
    intro r
    rw [← due_erase hq, ← due_erase hq, hbq', hbq, due_perm hr.symm]
    refine due_congr (fun r hr => ?_) r
    rw [hbody r (h.nodup.mem_erase_iff.1 hr).1]
  refine @Settled.accurate body rest rt.gcObjList _ ?_ fun r => ?_
  · refine ⟨rfl, h.tmp, h.zero, h.phase, h.nodup, fun r hl => ?_, fun r hl => ?_⟩
    · rw [hdue]
      rcases eq_or_ne r q with rfl | hne
      · cases ho.symm.trans (hs.objs r hl).1
        rw [hbq']
        exact ⟨store_self .., (hs.objs r hl).2⟩
      · rw [hbody r hne]
        exact ⟨(store_of_ne hne _).trans (hs.objs r hl).1, (hs.objs r hl).2⟩
    · have hne : r ≠ q := fun he => hl (he ▸ hq)
      rw [hdue]
      exact ⟨(store_of_ne hne _).trans (hs.absent r hl).1, (hs.absent r hl).2⟩
  · have htype : ∀ c, (body c).type = typeAt rt c := by
      intro c
      rcases eq_or_ne c q with rfl | hne
      · rw [hbq', ht, typeAt, hbq]
      · rw [hbody c hne, typeAt]
    rcases eq_or_ne r q with rfl | hne
    · rw [hbq']
      exact regular_congr (fun c _ => htype c) hb
    · rw [hbody r hne]
      exact regular_congr (fun c _ => htype c) (regular_bodyAt h r)

/-- One operation keeps the counts accurate. -/
theorem accurate_step {s s' : JSRuntime × List Ptr} (h : Accurate s.1 s.2) (hs : Step s s') :
    Accurate s'.1 s'.2 := by
  cases hs with
  | new hp hb hr hrun =>
    cases hrun
    exact accurate_new h hp hb hr
  | dup hp hrun =>
    obtain ⟨o, ho⟩ := Option.isSome_iff_exists.1 (Accurate.live_of_reach h hp)
    exact (wp_dupRef (Q := fun _ rt' => Accurate rt' _) (R := fun _ _ => False) ho
      (accurate_dup h ho)).ok hrun
  | move hq ho ht hb hr => exact accurate_move h ho ht hb hr
  | free hr hf hrun => exact ((wp_freeRef_releases (Accurate.of_perm h hr) hf).ok hrun).1
  | runGC hf hrun => exact ((wp_jsRunGC_collects h hf).ok hrun).1

/-- In every run of the engine the counts are accurate, every object that can
be reached is allocated, and no operation stops. -/
theorem accurate_of_reachable (h : Reachable (rt, roots)) :
    Accurate rt roots ∧ (∀ p, Reach (childrenAt rt) roots p → Live rt p) ∧
      (∀ p rest fuel, roots.Perm (p :: rest) → enough rt ≤ fuel →
        ∃ rt', (freeRef fuel p).run rt = .ok ⟨⟩ rt') ∧
      ∀ fuel, enough rt ≤ fuel → ∃ rt', (jsRunGC fuel).run rt = .ok ⟨⟩ rt' := by
  have hacc : ∀ s, Reachable s → Accurate s.1 s.2 := by
    intro s hs
    induction hs with
    | refl => exact accurate_initial
    | tail _ hstep ih => exact accurate_step ih hstep
  have ha := hacc _ h
  refine ⟨ha, fun p hp => Accurate.live_of_reach ha hp, fun p rest fuel hr hf => ?_, fun fuel hf => ?_⟩
  · obtain ⟨⟨⟩, rt', hrun, -⟩ := (wp_freeRef_releases (Accurate.of_perm ha hr) hf).exists_ok
    exact ⟨rt', hrun⟩
  · obtain ⟨⟨⟩, rt', hrun, -⟩ := (wp_jsRunGC_collects ha hf).exists_ok
    exact ⟨rt', hrun⟩

/-- A new shape, and then an object of this shape. -/
def shapeHeap : JSRuntime := { initial.store 0 ⟨1, false, .shape none⟩ with gcObjList := [0] }

def objectHeap : JSRuntime :=
  { shapeHeap.store 1 ⟨1, false, .jsObject (.ofRefs (some 0) [] [])⟩ with gcObjList := [0, 1] }

theorem reachable_objectHeap : Reachable (objectHeap, [1]) := by
  have h₀ : Step (initial, []) (shapeHeap, [0]) := .new (b := .shape none) rfl (regular_shape _) (.refl _) rfl
  have h₁ : Step (shapeHeap, [0]) (objectHeap, [1]) :=
    .new (b := .jsObject (.ofRefs (some 0) [] [])) rfl (regular_ofRefs rfl) (.refl _) rfl
  exact (Relation.ReflTransGen.single h₀).tail h₁

theorem accurate_of_reachable_objectHeap :
    Accurate objectHeap [1] ∧ (∀ p, Reach (childrenAt objectHeap) [1] p → Live objectHeap p) ∧
      (∀ p rest fuel, [1].Perm (p :: rest) → enough objectHeap ≤ fuel →
        ∃ rt', (freeRef fuel p).run objectHeap = .ok ⟨⟩ rt') ∧
      ∀ fuel, enough objectHeap ≤ fuel → ∃ rt', (jsRunGC fuel).run objectHeap = .ok ⟨⟩ rt' :=
  accurate_of_reachable reachable_objectHeap

end CkbJs.Proof.Gc
