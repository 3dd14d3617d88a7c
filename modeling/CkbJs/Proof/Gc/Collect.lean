import CkbJs.Proof.Gc.Release

/-!
# Collecting cycles

`gc_decref` takes the references that the objects hold out of the counts, so
that only those from outside are left (`wp_gcDecref`). `gc_scan` adds them
again, first for what it comes to from objects with a count
(`wp_gcScanLoop`: `gc_obj_list` then has the reachable objects), then for the
others. `gc_free_cycles` destroys these. `wp_jsRunGC` is the main result.
-/

namespace CkbJs.Proof.Gc

open CkbJs.Heap CkbJs.Impl.Gc CkbJs.Spec.Gc

variable {body : Ptr → Body} {roots L : List Ptr} {rt rt' : JSRuntime} {p q c : Ptr} {o : GcObject}

/-! ## Loops over lists -/

theorem nextIn_append {l : List Ptr} (h : p ∉ l) (l' : List Ptr) :
    nextIn (l ++ p :: l') p = some l'.head? := by
  induction l with
  | nil => simp [nextIn]
  | cons a l ih =>
    have hne : a ≠ p := fun he => h (he ▸ List.mem_cons_self)
    rw [List.cons_append, nextIn, if_neg hne]
    exact ih fun hc => h (List.mem_cons_of_mem a hc)

theorem wp_next {list : JSRuntime → List Ptr} {l l' : List Ptr} (hl : list rt = l ++ p :: l')
    (h : p ∉ l) {Q : Option Ptr → JSRuntime → Prop} {R : Stop → JSRuntime → Prop} (hQ : Q l'.head? rt) :
    WP (next list p) rt Q R := by
  refine .bind (.of_get ?_)
  rw [hl, nextIn_append h]
  exact .of_pure hQ

theorem wp_markRef {f : Ptr → M Unit} {Q : Unit → JSRuntime → Prop} {R : Stop → JSRuntime → Prop}
    (hs : ∃ o, rt.objs p = some o ∧ Strong o.body) (h : WP (f p) rt Q R) : WP (markRef f p) rt Q R := by
  obtain ⟨o, ho, hs⟩ := hs
  refine wp_fetch_bind ho ?_
  split
  · rename_i hb
    rw [hb] at hs
    exact hs.elim
  · exact h

/-- `mark_children`, from an invariant about the references left to visit. -/
theorem wp_markChildren {I : List Ptr → JSRuntime → Prop} {f : Ptr → M Unit} {type : Ptr → GcObjType}
    {R : Stop → JSRuntime → Prop} (ho : rt.objs p = some o) (hT : Regular type o.body)
    (h : I (children o.body) rt)
    (found : ∀ c l rt, I (c :: l) rt → ∃ o, rt.objs c = some o ∧ Strong o.body)
    (step : ∀ c l rt, I (c :: l) rt → WP (f c) rt (fun _ rt' => I l rt') R) :
    WP (markChildren p f) rt (fun _ rt' => I [] rt') R := by
  have hloop : ∀ {l r rt}, I (l ++ r) rt → WP (l.forM f) rt (fun _ rt' => I r rt') R := fun {l r rt} h =>
    WP.forM (I := fun l => I (l ++ r)) h fun c l rt h => step c (l ++ r) rt h
  have hrefs : ∀ {l r rt}, I (l ++ r) rt → WP (l.forM (markRef f)) rt (fun _ rt' => I r rt') R :=
    fun {l r rt} h => WP.forM (I := fun l => I (l ++ r)) h fun c l rt h =>
      wp_markRef (found c (l ++ r) rt h) (step c (l ++ r) rt h)
  rcases o with ⟨n, m, b⟩
  refine wp_fetch_bind ho ?_
  cases b with
  | jsObject obj =>
    obtain ⟨shape, prop, data, funcState, records, firstWeakRef⟩ := obj
    obtain ⟨⟨sh, rfl, -⟩, -⟩ := hT
    simp only [children, List.append_assoc] at h
    refine .bind ((step sh _ rt h).mono (fun _ rt₁ h₁ => ?_) fun _ _ h => h)
    refine .bind ((hrefs (l := prop) h₁).mono (fun _ rt₂ h₂ => ?_) fun _ _ h => h)
    refine .bind ((hrefs (l := data) h₂).mono (fun _ rt₃ h₃ => ?_) fun _ _ h => h)
    refine .bind ((hloop (l := frameValues funcState) h₃).mono (fun _ rt₄ h₄ => ?_) fun _ _ h => h)
    rw [← List.append_nil (records.filterMap MapRecord.value)] at h₄
    exact hloop h₄
  | functionBytecode cpool realm =>
    refine .bind ((hloop h).mono (fun _ rt₁ h₁ => ?_) fun _ _ h => h)
    rw [← List.append_nil realm.toList] at h₁
    exact hloop h₁
  | shape proto =>
    rw [children, ← List.append_nil proto.toList] at h
    exact hloop h
  | varRef pvalue =>
    rw [children, ← List.append_nil pvalue.toList] at h
    exact hloop h
  | openVarRef pvalue frame => exact hT.strong.elim
  | asyncFunction funcState resolvingFuncs =>
    refine .bind ((hloop h).mono (fun _ rt₁ h₁ => ?_) fun _ _ h => h)
    rw [← List.append_nil resolvingFuncs] at h₁
    exact hloop h₁
  | jsContext loadedModules values arrayShape =>
    rw [children, List.append_assoc] at h
    refine .bind ((hloop h).mono (fun _ rt₁ h₁ => ?_) fun _ _ h => h)
    refine .bind ((hloop h₁).mono (fun _ rt₂ h₂ => ?_) fun _ _ h => h)
    rw [← List.append_nil arrayShape.toList] at h₂
    exact hloop h₂

/-! ## Trial deletion -/

/-- In `gc_decref`: the objects `done` are marked, and `todo` is left of
`gc_obj_list`. -/
structure Decref (body : Ptr → Body) (L done todo R H : List Ptr) (rt : JSRuntime) : Prop where
  objs : ∀ p ∈ L, rt.objs p = some ⟨due body R H p, decide (p ∈ done), body p⟩
  absent : ∀ p, p ∉ L → rt.objs p = none ∧ due body R H p = 0
  gc : ∃ kept, rt.gcObjList = kept ++ todo ∧ kept.Nodup ∧ ∀ p, p ∈ kept ↔ p ∈ done ∧ 0 < due body R H p
  tmp : rt.tmpObjList.Nodup ∧ ∀ p, p ∈ rt.tmpObjList ↔ p ∈ done ∧ due body R H p = 0
  zero : rt.gcZeroRefCountList = []
  phase : rt.gcPhase = .none

variable {done todo R H : List Ptr}

theorem Decref.mem (h : Decref body L done todo R H rt) (hp : 0 < due body R H p) : p ∈ L := by
  by_contra hn
  have := (h.absent p hn).2
  omega

theorem wp_gcDecrefChild (h : Decref body L done todo (c :: R) H rt) :
    WP (gcDecrefChild c) rt (fun _ rt' => Decref body L done todo R H rt') fun _ _ => False := by
  have hcL : c ∈ L := h.mem (by rw [due_cons_self]; omega)
  have ho := h.objs c hcL
  rw [due_cons_self] at ho
  obtain ⟨kept, hgc, hkn, hk⟩ := h.gc
  obtain ⟨htn, ht⟩ := h.tmp
  let o' : GcObject := ⟨due body R H c, decide (c ∈ done), body c⟩
  have hobjs : ∀ p ∈ L, (rt.store c o').objs p = some ⟨due body R H p, decide (p ∈ done), body p⟩ := by
    intro p hp
    rcases eq_or_ne p c with rfl | hne
    · exact store_self ..
    · rw [store_of_ne hne, h.objs p hp, due_cons_of_ne hne]
  have habsent : ∀ p, p ∉ L → (rt.store c o').objs p = none ∧ due body R H p = 0 := by
    intro p hp
    have hne : p ≠ c := fun he => hp (he ▸ hcL)
    rw [store_of_ne hne, ← due_cons_of_ne hne]
    exact h.absent p hp
  have hstore : rt.store c ⟨(due body R H c + 1 : Nat) - 1, decide (c ∈ done), body c⟩ = rt.store c o' := by
    congr 2
    omega
  refine wp_fetch_bind ho (.bind (wp_assert (decide_eq_true (by simp only; omega)) ?_))
  refine .bind (wp_decRefCount ho ?_)
  simp only [hstore]
  refine wp_fetch_bind (store_self ..) (.ite (fun hc => ?_) fun hc => ?_)
  · -- the last reference from an object of `done`
    obtain ⟨h0, hm⟩ := hc
    have h0 : due body R H c = 0 := by omega
    have hd : c ∈ done := of_decide_eq_true hm
    have hck : c ∈ kept := by
      rw [hk, due_cons_self]
      exact ⟨hd, by omega⟩
    have hct : c ∉ rt.tmpObjList := by
      rw [ht, due_cons_self]
      omega
    have hl : c ∈ rt.linked := by
      rw [mem_linked, hgc]
      exact .inl (List.mem_append_left _ hck)
    refine .bind (wp_listDel hl (.of_modify ?_))
    refine ⟨hobjs, habsent, ⟨kept.erase c, ?_, hkn.erase c, fun p => ?_⟩, ⟨?_, fun p => ?_⟩, ?_, h.phase⟩
    · show rt.gcObjList.erase c = _
      rw [hgc, List.erase_append_left _ hck]
    · rw [hkn.mem_erase_iff, hk]
      rcases eq_or_ne p c with rfl | hne
      · simp [h0]
      · rw [due_cons_of_ne hne, and_iff_right hne]
    · show (rt.tmpObjList.erase c ++ [c]).Nodup
      rw [List.erase_of_not_mem hct, ← List.concat_eq_append]
      exact htn.concat hct
    · show p ∈ rt.tmpObjList.erase c ++ [c] ↔ _
      rw [List.erase_of_not_mem hct, List.mem_append, List.mem_singleton, ht]
      rcases eq_or_ne p c with rfl | hne
      · simp [h0, hd]
      · rw [due_cons_of_ne hne, or_iff_left hne]
    · show rt.gcZeroRefCountList.erase c = []
      rw [h.zero, List.erase_nil]
  · have hpos : c ∈ done → 0 < due body R H c := fun hd => by
      by_contra hn
      exact hc ⟨by omega, decide_eq_true hd⟩
    refine .of_pure ⟨hobjs, habsent, ⟨kept, hgc, hkn, fun p => ?_⟩, ⟨htn, fun p => ?_⟩, h.zero, h.phase⟩
    · rw [hk]
      rcases eq_or_ne p c with rfl | hne
      · rw [due_cons_self]
        exact ⟨fun h => ⟨h.1, hpos h.1⟩, fun h => ⟨h.1, by omega⟩⟩
      · rw [due_cons_of_ne hne]
    · refine (ht p).trans ?_
      rcases eq_or_ne p c with rfl | hne
      · rw [due_cons_self]
        exact ⟨fun h => absurd h.2 (by omega), fun h => absurd (hpos h.1) (by omega)⟩
      · rw [due_cons_of_ne hne]

theorem Decref.of_due {R' H' : List Ptr} (h : Decref body L done todo R H rt)
    (hd : ∀ q, due body R H q = due body R' H' q) : Decref body L done todo R' H' rt := by
  refine ⟨?_, ?_, ?_, ?_, h.zero, h.phase⟩ <;> simp only [← hd]
  · exact h.objs
  · exact h.absent
  · exact h.gc
  · exact h.tmp

/-- The end of the body of the loop: the object is marked, and moved if nothing
from outside the objects left refers to it. -/
theorem wp_gcDecref_mark {k : M Unit} {Q : Unit → JSRuntime → Prop} (hp : p ∉ done) (hpL : p ∈ L)
    (ht : p ∉ todo) (h : Decref body L done (p :: todo) R H rt)
    (hk : ∀ rt', Decref body L (done ++ [p]) todo R H rt' → WP k rt' Q fun _ _ => False) :
    WP (do
      store p { ← fetch p with mark := true }
      if (← fetch p).refCount = 0 then
        listDel p
        addTailTmpObjList p
      k) rt Q fun _ _ => False := by
  obtain ⟨kept, hgc, hkn, hkept⟩ := h.gc
  obtain ⟨htn, htmp⟩ := h.tmp
  have ho := h.objs p hpL
  have hmem : ∀ q, q ≠ p → (q ∈ done ++ [p] ↔ q ∈ done) := fun q hne => by simp [hne]
  let o' : GcObject := ⟨due body R H p, true, body p⟩
  have hobjs : ∀ q ∈ L, (rt.store p o').objs q = some ⟨due body R H q, decide (q ∈ done ++ [p]), body q⟩ := by
    intro q hq
    rcases eq_or_ne q p with rfl | hne
    · rw [store_self, decide_eq_true (by simp)]
    · rw [store_of_ne hne, h.objs q hq, decide_eq_decide.2 (hmem q hne)]
  have habsent : ∀ q, q ∉ L → (rt.store p o').objs q = none ∧ due body R H q = 0 := by
    intro q hq
    rw [store_of_ne fun he : q = p => hq (he ▸ hpL)]
    exact h.absent q hq
  refine wp_fetch_bind ho (.bind (.of_modify (wp_fetch_bind (store_self ..) ?_)))
  refine .ite (fun h0 => ?_) fun h0 => ?_
  · have h0 : due body R H p = 0 := by simpa using h0
    have hpk : p ∉ kept := fun hc => hp ((hkept p).1 hc).1
    have hpt : p ∉ rt.tmpObjList := fun hc => hp ((htmp p).1 hc).1
    have hl : p ∈ rt.linked := by simp [mem_linked, hgc]
    refine .bind (wp_listDel hl (.bind (.of_modify (hk _ ?_))))
    refine ⟨hobjs, habsent, ⟨kept, ?_, hkn, fun q => ?_⟩, ⟨?_, fun q => ?_⟩, ?_, h.phase⟩
    · show rt.gcObjList.erase p = _
      rw [hgc, List.erase_append_right _ hpk, List.erase_cons_head]
    · rw [hkept]
      rcases eq_or_ne q p with rfl | hne
      · simp [h0]
      · rw [hmem q hne]
    · show (rt.tmpObjList.erase p ++ [p]).Nodup
      rw [List.erase_of_not_mem hpt, ← List.concat_eq_append]
      exact htn.concat hpt
    · show q ∈ rt.tmpObjList.erase p ++ [p] ↔ _
      rw [List.erase_of_not_mem hpt, List.mem_append, List.mem_singleton, htmp]
      rcases eq_or_ne q p with rfl | hne
      · simp [h0]
      · rw [hmem q hne, or_iff_left hne]
    · show rt.gcZeroRefCountList.erase p = []
      rw [h.zero, List.erase_nil]
  · have hpos : 0 < due body R H p := Nat.pos_of_ne_zero fun hz => h0 (by simp [hz])
    have hpk : p ∉ kept := fun hc => hp ((hkept p).1 hc).1
    refine hk _ ⟨hobjs, habsent, ⟨kept ++ [p], ?_, ?_, fun q => ?_⟩, ⟨htn, fun q => ?_⟩, h.zero, h.phase⟩
    · show rt.gcObjList = _
      rw [hgc, List.append_assoc, List.singleton_append]
    · rw [← List.concat_eq_append]
      exact hkn.concat hpk
    · rw [List.mem_append, List.mem_singleton, hkept]
      rcases eq_or_ne q p with rfl | hne
      · simp [hpos]
      · rw [hmem q hne, or_iff_left hne]
    · refine (htmp q).trans ?_
      rcases eq_or_ne q p with rfl | hne
      · exact ⟨fun h => absurd h.2 (by omega), fun h => absurd h.2 (by omega)⟩
      · rw [hmem q hne]

variable (hT : ∀ p, Regular (fun q => (body q).type) (body p))

include hT

theorem wp_gcDecrefLoop {fuel : Nat} (hL : L = done ++ todo) (hnd : L.Nodup) (hfuel : todo.length ≤ fuel)
    (h : Decref body L done todo roots todo rt) :
    WP (gcDecrefLoop fuel todo.head?) rt (fun _ rt' => Decref body L L [] roots [] rt')
      fun _ _ => False := by
  induction todo generalizing done fuel rt with
  | nil =>
    rw [List.append_nil] at hL
    subst hL
    cases fuel <;> exact .of_pure h
  | cons p todo ih =>
    obtain _ | fuel := fuel
    · simp at hfuel
    obtain ⟨kept, hgc, -, hkept⟩ := h.gc
    rw [hL] at hnd
    have hpd : p ∉ done := fun hc => (List.nodup_append.1 hnd).2.2 p hc p List.mem_cons_self rfl
    have hpt : p ∉ todo := (List.nodup_cons.1 (List.nodup_append.1 hnd).2.1).1
    have hpL : p ∈ L := by simp [hL]
    have ho := h.objs p hpL
    rw [decide_eq_false hpd] at ho
    refine .bind (wp_next hgc (fun hc => hpd ((hkept p).1 hc).1) (wp_fetch_bind ho ?_))
    refine .bind (wp_assert rfl (WP.seq (wp_markChildren
      (I := fun l rt => Decref body L done (p :: todo) (l ++ roots) todo rt) ho (hT p) ?_ ?_ ?_)
      (fun _ _ h => h) ?_))
    · exact h.of_due fun q => owed_cons_holder roots todo p q
    · intro c l rt (h : Decref body L done (p :: todo) (c :: (l ++ roots)) todo rt)
      have hcL : c ∈ L := h.mem (by rw [due_cons_self]; omega)
      exact ⟨_, h.objs c hcL, (hT c).strong⟩
    · exact fun c l rt h => wp_gcDecrefChild h
    · intro _ rt₁ h₁
      refine wp_gcDecref_mark hpd hpL hpt h₁ fun rt₂ h₂ => ?_
      exact ih (by simp [hL]) (by simpa using hfuel) h₂

/-- After `gc_decref`, the counts are the references from outside. -/
theorem wp_gcDecref {fuel : Nat} (hnd : rt.gcObjList.Nodup) (hfuel : rt.gcObjList.length ≤ fuel)
    (h : Decref body rt.gcObjList [] rt.gcObjList roots rt.gcObjList { rt with tmpObjList := [] }) :
    WP (gcDecref fuel) rt (fun _ rt' => Decref body rt.gcObjList rt.gcObjList [] roots [] rt')
      fun _ _ => False :=
  .bind (.of_modify (.bind (.of_get (wp_gcDecrefLoop hT rfl hnd hfuel h))))

omit hT

/-! ## Rescue -/

/-- In `gc_scan`: the objects `seen` have been visited but for the references
`left`, and `rest` is left of `gc_obj_list`. -/
structure Scan (body : Ptr → Body) (roots L seen rest left : List Ptr) (rt : JSRuntime) : Prop where
  objs : ∀ p ∈ L, ∃ o, rt.objs p = some o ∧ o.body = body p ∧
    o.refCount + left.count p = due body roots seen p ∧ (p ∈ seen → o.mark = false) ∧
    0 ≤ o.refCount ∧ (p ∈ rt.gcObjList ↔ 0 < o.refCount) ∧ (p ∈ rt.tmpObjList ↔ o.refCount = 0)
  absent : ∀ p, p ∉ L → rt.objs p = none ∧ p ∉ rt.linked ∧ due body roots L p = 0
  gc : rt.gcObjList = seen ++ rest
  nodup : rt.linked.Nodup
  reach : ∀ p ∈ rt.gcObjList, Reach (fun q => children (body q)) roots p
  zero : rt.gcZeroRefCountList = []
  phase : rt.gcPhase = .none

variable {seen rest left : List Ptr}

/-- `list_del` and `list_add_tail` to `gc_obj_list`. -/
def toGc (rt : JSRuntime) (p : Ptr) : JSRuntime :=
  { rt.unlink p with gcObjList := (rt.unlink p).gcObjList ++ [p] }

theorem toGc_linked (hl : p ∈ rt.linked) (hnd : rt.linked.Nodup) :
    (toGc rt p).linked.Nodup ∧ ∀ q, q ∈ (toGc rt p).linked ↔ q ∈ rt.linked := by
  have hp : (toGc rt p).linked.Perm (p :: (rt.unlink p).linked) := by
    simp only [JSRuntime.linked, toGc, List.append_assoc, List.singleton_append]
    exact List.perm_middle
  refine ⟨?_, fun q => ?_⟩
  · rw [hp.nodup_iff, List.nodup_cons, mem_unlink hnd]
    exact ⟨fun h => h.1 rfl, hnd.sublist (unlink_sublist rt p)⟩
  · rw [hp.mem_iff, List.mem_cons, mem_unlink hnd]
    rcases eq_or_ne q p with rfl | hne
    · simp [hl]
    · simp [hne]

theorem wp_gcScanIncrefChild (h : Scan body roots L seen rest (c :: left) rt)
    (hc : c ∈ L) (hr : Reach (fun q => children (body q)) roots c) :
    WP (gcScanIncrefChild c) rt (fun _ rt' => ∃ rest', Scan body roots L seen rest' left rt')
      fun _ _ => False := by
  obtain ⟨o, ho, hb, hcount, hmark, hnn, hg, ht⟩ := h.objs c hc
  rw [List.count_cons_self] at hcount
  have hcL : ∀ {p}, p ∉ L → p ≠ c := fun hp he => hp (he ▸ hc)
  refine .bind (wp_dupRef ho (wp_fetch_bind (store_self ..) (.ite (fun h1 => ?_) fun h1 => ?_)))
  · -- found for the first time
    have h0 : o.refCount = 0 := by simp only at h1; omega
    have hct : c ∈ rt.tmpObjList := ht.2 h0
    have hcg : c ∉ rt.gcObjList := fun hc => by have := hg.1 hc; omega
    have hl : c ∈ rt.linked := mem_linked.2 (.inr (.inl hct))
    have htn : rt.tmpObjList.Nodup := (List.nodup_append.1 (List.nodup_append.1 h.nodup).1).2.1
    refine .bind (wp_listDel hl (.bind (.of_modify ?_)))
    refine wp_fetch_bind (store_self ..) (.of_modify ⟨rest ++ [c], ?_⟩)
    obtain ⟨hnd, hmem⟩ := toGc_linked hl h.nodup
    have hgc : rt.gcObjList.erase c ++ [c] = rt.gcObjList ++ [c] := by rw [List.erase_of_not_mem hcg]
    refine ⟨fun p hp => ?_, fun p hp => ⟨?_, fun hpl => (h.absent p hp).2.1 ((hmem p).1 hpl), (h.absent p hp).2.2⟩,
      ?_, hnd, fun p hp => ?_, ?_, h.phase⟩
    · show ∃ o', _ ∧ _ ∧ _ ∧ _ ∧ _ ∧ (p ∈ rt.gcObjList.erase c ++ [c] ↔ _) ∧ (p ∈ rt.tmpObjList.erase c ↔ _)
      rw [hgc, List.mem_append, List.mem_singleton, htn.mem_erase_iff]
      rcases eq_or_ne p c with rfl | hne
      · refine ⟨_, store_self .., hb, ?_, fun _ => rfl, ?_, ?_, ?_⟩ <;> simp only [h0]
        · omega
        · omega
        · simp
        · simp
      · obtain ⟨o', ho', hb', hcount', hmark', hnn', hg', ht'⟩ := h.objs p hp
        rw [List.count_cons_of_ne hne.symm] at hcount'
        refine ⟨o', ?_, hb', hcount', hmark', hnn', ?_, ?_⟩
        · exact (store_of_ne hne _).trans ((store_of_ne hne _).trans ho')
        · rw [or_iff_left hne, hg']
        · rw [and_iff_right hne, ht']
    · exact (store_of_ne (hcL hp) _).trans ((store_of_ne (hcL hp) _).trans (h.absent p hp).1)
    · show rt.gcObjList.erase c ++ [c] = _
      rw [hgc, h.gc, List.append_assoc]
    · have hp : p ∈ rt.gcObjList.erase c ++ [c] := hp
      rw [hgc, List.mem_append, List.mem_singleton] at hp
      rcases hp with hp | rfl
      · exact h.reach p hp
      · exact hr
    · show rt.gcZeroRefCountList.erase c = []
      rw [h.zero, List.erase_nil]
  · refine .of_pure ⟨rest, fun p hp => ?_, fun p hp => ⟨?_, (h.absent p hp).2⟩, h.gc, h.nodup, h.reach,
      h.zero, h.phase⟩
    · rcases eq_or_ne p c with rfl | hne
      · simp only at h1
        refine ⟨_, store_self .., hb, ?_, hmark, ?_, ?_, ?_⟩
        · show o.refCount + 1 + _ = _
          omega
        · show 0 ≤ o.refCount + 1
          omega
        · refine hg.trans ?_
          show _ ↔ 0 < o.refCount + 1
          omega
        · refine ht.trans ?_
          show _ ↔ o.refCount + 1 = 0
          omega
      · obtain ⟨o', ho', hb', hcount', h'⟩ := h.objs p hp
        rw [List.count_cons_of_ne hne.symm] at hcount'
        exact ⟨o', (store_of_ne hne _).trans ho', hb', hcount', h'⟩
    · exact (store_of_ne (hcL hp) _).trans (h.absent p hp).1

theorem Scan.mem (h : Scan body roots L seen rest left rt) (hp : p ∈ rt.linked) : p ∈ L := by
  by_contra hn
  exact (h.absent p hn).2.1 hp

theorem Scan.length_le (h : Scan body roots L seen rest left rt) :
    seen.length + rest.length ≤ L.length := by
  rw [← List.length_append, ← h.gc]
  have hnd : rt.gcObjList.Nodup := (List.nodup_append.1 (List.nodup_append.1 h.nodup).1).1
  exact (List.subperm_of_subset hnd fun p hp => h.mem (mem_linked.2 (.inl hp))).length_le

/-- The loop comes to the next object. -/
theorem Scan.visit (h : Scan body roots L seen (p :: rest) [] rt) (ho : rt.objs p = some o) :
    Scan body roots L (seen ++ [p]) rest (children (body p)) (rt.store p { o with mark := false }) := by
  have hpL : p ∈ L := h.mem (mem_linked.2 (.inl (by simp [h.gc])))
  refine ⟨fun q hq => ?_, fun q hq => ⟨?_, (h.absent q hq).2⟩, ?_, h.nodup, h.reach, h.zero, h.phase⟩
  · have hd : due body roots (seen ++ [p]) q = (children (body p)).count q + due body roots seen q := by
      rw [due, owed_concat, owed_append]
      rfl
    obtain ⟨o', ho', hb, hcount, hmark, h'⟩ := h.objs q hq
    rw [hd, List.mem_append, List.mem_singleton]
    simp only [List.count_nil] at hcount
    rcases eq_or_ne q p with rfl | hne
    · cases ho.symm.trans ho'
      refine ⟨_, store_self .., hb, ?_, fun _ => rfl, h'⟩
      show o.refCount + _ = _
      omega
    · refine ⟨o', (store_of_ne hne _).trans ho', hb, by omega, fun hs => hmark (hs.resolve_right hne), h'⟩
  · rw [store_of_ne fun he : q = p => hq (he ▸ hpL)]
    exact (h.absent q hq).1
  · show rt.gcObjList = _
    rw [h.gc, List.append_assoc, List.singleton_append]

include hT in
/-- After the first loop of `gc_scan`, `gc_obj_list` has been visited. -/
theorem wp_gcScanLoop {fuel : Nat} (hkids : ∀ p ∈ L, ∀ c ∈ children (body p), c ∈ L)
    (hfuel : L.length ≤ seen.length + fuel) (h : Scan body roots L seen rest [] rt) :
    WP (gcScanLoop fuel rest.head?) rt (fun _ rt' => ∃ seen', Scan body roots L seen' [] [] rt')
      fun _ _ => False := by
  induction fuel generalizing seen rest rt with
  | zero =>
    have := h.length_le
    obtain rfl : rest = [] := List.length_eq_zero_iff.1 (by omega)
    exact .of_pure ⟨seen, h⟩
  | succ fuel ih =>
    cases rest with
    | nil => exact .of_pure ⟨seen, h⟩
    | cons p rest =>
      have hpg : p ∈ rt.gcObjList := by simp [h.gc]
      have hpL := h.mem (mem_linked.2 (.inl hpg))
      obtain ⟨o, ho, hb, -, -, -, hg, -⟩ := h.objs p hpL
      have hTp := hT p
      rw [← hb] at hTp
      refine wp_fetch_bind ho (.bind (wp_assert (decide_eq_true (hg.1 hpg)) ?_))
      refine wp_fetch_bind ho (.bind (.of_modify (WP.seq (wp_markChildren (I := fun l rt =>
        (∀ c ∈ l, c ∈ children (body p)) ∧ ∃ rest, Scan body roots L (seen ++ [p]) rest l rt)
        (store_self ..) hTp ⟨fun c hc => hb ▸ hc, rest, ?_⟩ ?_ ?_) (fun _ _ h => h) ?_)))
      · have := h.visit ho
        rwa [← hb] at this
      · rintro c l rt₁ ⟨hl, rest₁, h₁⟩
        obtain ⟨o₁, ho₁, hb₁, -⟩ := h₁.objs c (hkids p hpL c (hl c List.mem_cons_self))
        exact ⟨o₁, ho₁, hb₁ ▸ (hT c).strong⟩
      · rintro c l rt₁ ⟨hl, rest₁, h₁⟩
        have hc := hl c List.mem_cons_self
        have hr : Reach (fun q => children (body q)) roots p :=
          h₁.reach p (by simp [h₁.gc])
        refine (wp_gcScanIncrefChild h₁ (hkids p hpL c hc) (hr.child hc)).mono ?_ fun _ _ h => h
        exact fun _ rt₂ h₂ => ⟨fun c hc => hl c (List.mem_cons_of_mem _ hc), h₂⟩
      · rintro - rt₁ ⟨-, rest₁, h₁⟩
        have hgc : rt₁.gcObjList = seen ++ p :: rest₁ := by
          rw [h₁.gc, List.append_assoc, List.singleton_append]
        have hnd : rt₁.gcObjList.Nodup := (List.nodup_append.1 (List.nodup_append.1 h₁.nodup).1).1
        rw [hgc] at hnd
        have hp : p ∉ seen := fun hc => (List.nodup_append.1 hnd).2.2 p hc p List.mem_cons_self rfl
        refine .bind (wp_next hgc hp (ih ?_ h₁))
        simp only [List.length_append, List.length_singleton]
        omega

/-! ## Restoring the counts of the garbage -/

/-- In the second loop of `gc_scan`: the garbage `seen` has been visited but
for the references `left`. -/
structure Restore (body : Ptr → Body) (roots L live seen rest left : List Ptr) (rt : JSRuntime) : Prop where
  objs : ∀ p ∈ L, ∃ o, rt.objs p = some o ∧ o.body = body p ∧
    o.refCount + left.count p = due body roots (live ++ seen) p ∧ (p ∈ live → o.mark = false)
  absent : ∀ p, p ∉ L → rt.objs p = none
  gc : rt.gcObjList = live
  tmp : rt.tmpObjList = seen ++ rest
  zero : rt.gcZeroRefCountList = []
  phase : rt.gcPhase = .none

variable {live all : List Ptr}

theorem wp_gcScanIncrefChild2 (h : Restore body roots L live seen rest (c :: left) rt) (hc : c ∈ L) :
    WP (gcScanIncrefChild2 c) rt (fun _ rt' => Restore body roots L live seen rest left rt')
      fun _ _ => False := by
  obtain ⟨o, ho, hb, hcount, hmark⟩ := h.objs c hc
  rw [List.count_cons_self] at hcount
  refine wp_dupRef ho ⟨fun p hp => ?_, fun p hp => ?_, h.gc, h.tmp, h.zero, h.phase⟩
  · rcases eq_or_ne p c with rfl | hne
    · refine ⟨_, store_self .., hb, ?_, hmark⟩
      show o.refCount + 1 + _ = _
      omega
    · obtain ⟨o', ho', hb', hcount', hmark'⟩ := h.objs p hp
      rw [List.count_cons_of_ne hne.symm] at hcount'
      exact ⟨o', (store_of_ne hne _).trans ho', hb', hcount', hmark'⟩
  · rw [store_of_ne fun he : p = c => hp (he ▸ hc)]
    exact h.absent p hp

theorem Restore.visit (h : Restore body roots L live seen (p :: rest) [] rt) :
    Restore body roots L live (seen ++ [p]) rest (children (body p)) rt := by
  refine ⟨fun q hq => ?_, h.absent, h.gc, ?_, h.zero, h.phase⟩
  · have hd : due body roots (live ++ (seen ++ [p])) q =
        (children (body p)).count q + due body roots (live ++ seen) q := by
      rw [← List.append_assoc, due, owed_concat, owed_append]
      rfl
    obtain ⟨o, ho, hb, hcount, hmark⟩ := h.objs q hq
    simp only [List.count_nil] at hcount
    exact ⟨o, ho, hb, by omega, hmark⟩
  · rw [h.tmp, List.append_assoc, List.singleton_append]

include hT in
theorem wp_gcScanLoop2 {fuel : Nat} (hkids : ∀ p ∈ L, ∀ c ∈ children (body p), c ∈ L)
    (hrest : ∀ p ∈ rest, p ∈ L) (hnd : (seen ++ rest).Nodup) (hfuel : rest.length ≤ fuel)
    (h : Restore body roots L live seen rest [] rt) :
    WP (gcScanLoop2 fuel rest.head?) rt
      (fun _ rt' => Restore body roots L live (seen ++ rest) [] [] rt') fun _ _ => False := by
  induction rest generalizing seen fuel rt with
  | nil =>
    rw [List.append_nil]
    cases fuel <;> exact .of_pure h
  | cons p rest ih =>
    obtain _ | fuel := fuel
    · simp at hfuel
    have hpL := hrest p List.mem_cons_self
    obtain ⟨o, ho, hb, hcount, hmark⟩ := h.objs p hpL
    have hTp := hT p
    rw [← hb] at hTp
    refine WP.seq (wp_markChildren (I := fun l rt => (∀ c ∈ l, c ∈ children (body p)) ∧
      Restore body roots L live (seen ++ [p]) rest l rt) ho hTp ⟨fun c hc => hb ▸ hc, ?_⟩ ?_ ?_)
      (fun _ _ h => h) ?_
    · rw [hb]
      exact h.visit
    · rintro c l rt₁ ⟨hl, h₁⟩
      obtain ⟨o₁, ho₁, hb₁, -⟩ := h₁.objs c (hkids p hpL c (hl c List.mem_cons_self))
      exact ⟨o₁, ho₁, hb₁ ▸ (hT c).strong⟩
    · rintro c l rt₁ ⟨hl, h₁⟩
      refine (wp_gcScanIncrefChild2 h₁ (hkids p hpL c (hl c List.mem_cons_self))).mono ?_ fun _ _ h => h
      exact fun _ rt₂ h₂ => ⟨fun c hc => hl c (List.mem_cons_of_mem _ hc), h₂⟩
    · rintro - rt₁ ⟨-, h₁⟩
      have htmp : rt₁.tmpObjList = seen ++ p :: rest := by
        rw [h₁.tmp, List.append_assoc, List.singleton_append]
      have hp : p ∉ seen := fun hc => (List.nodup_append.1 hnd).2.2 p hc p List.mem_cons_self rfl
      have hl : (seen ++ [p]) ++ rest = seen ++ p :: rest := by rw [List.append_assoc, List.singleton_append]
      rw [← hl]
      refine .bind (wp_next htmp hp (ih (fun q hq => hrest q (List.mem_cons_of_mem p hq)) ?_ ?_ h₁))
      · rwa [hl]
      · simpa using hfuel

/-- After `gc_scan`: `live` is what is reachable, `dead` the garbage. -/
structure Sorted (body : Ptr → Body) (roots L live dead : List Ptr) (rt : JSRuntime) : Prop
    extends Restore body roots L live dead [] [] rt where
  nodup : (live ++ dead).Nodup
  mem_iff : ∀ p, p ∈ live ++ dead ↔ p ∈ L
  live_iff : ∀ p, p ∈ live ↔ Reach (fun q => children (body q)) roots p

/-- `gc_obj_list` after the first loop is closed, and contains the roots. -/
theorem Scan.live_iff (h : Scan body roots L seen [] [] rt) (hclosed : ∀ p, p ∉ L → due body roots L p = 0)
    (p : Ptr) : p ∈ seen ↔ Reach (fun q => children (body q)) roots p := by
  have hgc : rt.gcObjList = seen := by rw [h.gc, List.append_nil]
  have hseen : ∀ q ∈ seen, q ∈ L := fun q hq => h.mem (mem_linked.2 (.inl (hgc ▸ hq)))
  have hmem : ∀ q, 0 < due body roots seen q → q ∈ seen := by
    intro q hq
    have hqL : q ∈ L := by
      by_contra hn
      have h0 := hclosed q hn
      rw [due, owed_eq_zero_iff] at h0
      rcases owed_pos_iff.1 hq with hr | ⟨r, hr, hk⟩
      · exact h0.1 hr
      · exact h0.2 r (hseen r hr) hk
    obtain ⟨o, -, -, hcount, -, -, hg, -⟩ := h.objs q hqL
    rw [List.count_nil] at hcount
    rw [← hgc, hg]
    omega
  refine (reach_iff_mem (fun r hr => hmem r ?_) (fun q hq c hc => hmem c ?_) fun q hq => ?_).symm
  · exact owed_pos_iff.2 (.inl hr)
  · exact owed_pos_iff.2 (.inr ⟨q, hq, hc⟩)
  · exact h.reach q (hgc ▸ hq)

theorem Decref.scan (h : Decref body L L [] roots [] rt) (hclosed : ∀ p, p ∉ L → due body roots L p = 0) :
    Scan body roots L [] rt.gcObjList [] rt := by
  obtain ⟨kept, hgc, hkn, hk⟩ := h.gc
  obtain ⟨htn, ht⟩ := h.tmp
  rw [List.append_nil] at hgc
  have hlinked : rt.linked = kept ++ rt.tmpObjList := by
    rw [JSRuntime.linked, hgc, h.zero, List.append_nil]
  refine ⟨fun p hp => ⟨_, h.objs p hp, rfl, ?_, by simp, ?_, ?_, ?_⟩,
    fun p hp => ⟨(h.absent p hp).1, ?_, hclosed p hp⟩, rfl, ?_, fun p hp => ?_, h.zero, h.phase⟩
  · simp
  · show (0 : Int) ≤ due body roots [] p
    omega
  · rw [hgc, hk, and_iff_right hp]
    show _ ↔ (0 : Int) < due body roots [] p
    omega
  · rw [ht, and_iff_right hp]
    show _ ↔ (due body roots [] p : Int) = 0
    omega
  · rw [hlinked, List.mem_append, hk, ht]
    tauto
  · rw [hlinked, List.nodup_append]
    refine ⟨hkn, htn, fun a ha b hb he => ?_⟩
    have := ((hk a).1 ha).2
    have := ((ht b).1 hb).2
    rw [he] at *
    omega
  · rw [hgc, hk, due, owed_nil] at hp
    exact .root (List.count_pos_iff.1 hp.2)

include hT in
theorem wp_gcScan {fuel : Nat} (hclosed : ∀ p, p ∉ L → due body roots L p = 0) (hfuel : L.length ≤ fuel)
    (h : Decref body L L [] roots [] rt) :
    WP (gcScan fuel) rt (fun _ rt' => ∃ live dead, Sorted body roots L live dead rt') fun _ _ => False := by
  have hkids : ∀ p ∈ L, ∀ c ∈ children (body p), c ∈ L := by
    intro p hp c hc
    by_contra hn
    exact (owed_eq_zero_iff.1 (hclosed c hn)).2 p hp hc
  refine .bind (.of_get ?_)
  refine WP.seq (wp_gcScanLoop hT hkids (by simpa using hfuel) (h.scan hclosed)) (fun _ _ h => h) ?_
  rintro - rt₁ ⟨live, h₁⟩
  refine .bind (.of_get ?_)
  have hgc : rt₁.gcObjList = live := by rw [h₁.gc, List.append_nil]
  have hlinked : rt₁.linked = live ++ rt₁.tmpObjList := by
    rw [JSRuntime.linked, hgc, h₁.zero, List.append_nil]
  have hnd := h₁.nodup
  rw [hlinked] at hnd
  have hmem : ∀ p ∈ rt₁.tmpObjList, p ∈ L := fun p hp => h₁.mem (mem_linked.2 (.inr (.inl hp)))
  have hr : Restore body roots L live [] rt₁.tmpObjList [] rt₁ := by
    refine ⟨fun p hp => ?_, fun p hp => (h₁.absent p hp).1, hgc, rfl, h₁.zero, h₁.phase⟩
    obtain ⟨o, ho, hb, hcount, hmark, -⟩ := h₁.objs p hp
    exact ⟨o, ho, hb, by rwa [List.append_nil], hmark⟩
  have hlen : rt₁.tmpObjList.length ≤ fuel :=
    Nat.le_trans (List.subperm_of_subset (List.nodup_append.1 hnd).2.1 hmem).length_le hfuel
  have hnd' : ([] ++ rt₁.tmpObjList).Nodup := (List.nodup_append.1 hnd).2.1
  refine (wp_gcScanLoop2 hT hkids hmem hnd' hlen hr).mono ?_ fun _ _ h => h
  intro _ rt₂ h₂
  refine ⟨live, rt₁.tmpObjList, h₂, hnd, fun p => ?_, h₁.live_iff hclosed⟩
  rw [← hlinked]
  refine ⟨h₁.mem, fun hp => ?_⟩
  obtain ⟨o, -, -, -, -, hnn, hg, ht⟩ := h₁.objs p hp
  rcases Int.lt_or_eq_of_le hnn with hpos | h0
  · exact mem_linked.2 (.inl (hg.2 hpos))
  · exact mem_linked.2 (.inr (.inl (ht.2 h0.symm)))

/-! ## Destroying the garbage -/

include hT in
/-- What a part refers to has a smaller depth. -/
theorem depth_lt_of_mem (hq : isValueAt body q = false) (hk : p ∈ children (body q)) :
    depth (body p).type < depth (body q).type := by
  have hT := (hT q).typed
  rw [isValueAt] at hq
  cases hb : body q <;> rw [hb] at hT hk hq
  · cases hq
  · cases hq
  · exact lt_of_eq_of_lt (depth_of_isValue (hT p hk)) (show 1 < 2 by decide)
  · exact lt_of_eq_of_lt (depth_of_isValue (hT p hk)) (show 1 < 2 by decide)
  · cases hk
  · exact lt_of_eq_of_lt (depth_of_isValue (hT p hk)) (show 1 < 2 by decide)
  · obtain ⟨hm, hv, hs⟩ := hT
    rcases List.mem_append.1 hk with hk | hk
    · rcases List.mem_append.1 hk with hk | hk
      · rcases hm p hk with hv | hr
        · exact lt_of_eq_of_lt (depth_of_isValue hv) (show 1 < 3 by decide)
        · exact lt_of_eq_of_lt (congrArg depth hr) (show 2 < 3 by decide)
      · exact lt_of_eq_of_lt (depth_of_isValue (hv p hk)) (show 1 < 3 by decide)
    · exact lt_of_eq_of_lt (congrArg depth (hs p hk)) (show 2 < 3 by decide)

theorem Sorted.inv {live dead : List Ptr} (h : Sorted body roots L live dead rt)
    (hclosed : ∀ p, p ∉ L → due body roots L p = 0) (hpos : ∀ p ∈ L, 0 < due body roots L p) (hL : L.Nodup) :
    Inv body roots [] (live ++ dead) { rt with gcPhase := .removeCycles } := by
  have hlinked : ({ rt with gcPhase := .removeCycles } : JSRuntime).linked = live ++ dead := by
    simp [JSRuntime.linked, h.gc, h.tmp, h.zero]
  have hperm : (live ++ dead).Perm L := (List.perm_ext_iff_of_nodup h.nodup hL).2 h.mem_iff
  have hdue : ∀ p, due body ([] ++ roots) (live ++ dead) p = due body roots L p := fun p =>
    owed_perm_holders hperm roots p
  have hobj : ∀ p o, rt.objs p = some o → p ∈ L ∧ o.body = body p ∧ o.refCount = due body roots L p ∧
      (p ∈ live → o.mark = false) := by
    intro p o ho
    have hp : p ∈ L := by
      by_contra hn
      rw [h.absent p hn] at ho
      cases ho
    obtain ⟨o', ho', hb, hcount, hmark⟩ := h.objs p hp
    cases ho.symm.trans ho'
    rw [List.count_nil] at hcount
    refine ⟨hp, hb, ?_, hmark⟩
    rw [← hdue]
    simpa using hcount
  have hgc : ∀ p ∈ rt.gcObjList, p ∈ live := fun p hp => h.gc ▸ hp
  refine ⟨⟨?_, fun p => ?_, h.nodup, fun p hp => hlinked ▸ hp, fun p o ho => ?_, fun p ho => ?_,
    fun p _ o ho => (hobj p o ho).2.1, fun p o ho => by rw [(hobj p o ho).2.1],
    fun p hp o ho => (hobj p o ho).2.2.2 (hgc p hp)⟩,
    fun p hp hn => absurd (hlinked ▸ hp) hn, fun p hp _ => ?_, fun hc => absurd rfl hc, ?_, fun _ => ⟨fun p hp => ?_, ?_⟩⟩
  · rw [hlinked]
    exact h.nodup
  · rw [hlinked, h.mem_iff]
    refine ⟨fun hp => ?_, ?_⟩
    · obtain ⟨o, ho, -⟩ := h.objs p hp
      exact ⟨o, ho⟩
    · rintro ⟨o, ho⟩
      exact (hobj p o ho).1
  · rw [hdue, (hobj p o ho).2.2.1]
  · rw [hdue]
    refine hclosed p fun hp => ?_
    obtain ⟨o, ho', -⟩ := h.objs p hp
    exact absurd (ho'.symm.trans ho) (by simp)
  · rw [hdue]
    exact hpos p ((h.mem_iff p).1 hp)
  · rintro ⟨⟩
  · have hp := hgc p hp
    refine ⟨List.mem_append_left dead hp, ?_⟩
    show 0 < due body roots rt.gcObjList p
    rw [h.gc]
    exact ((h.live_iff p).1 hp).owed_pos fun q hq => (h.live_iff q).2 hq
  · show ∀ p ∈ rt.gcZeroRefCountList, _
    rw [h.zero]
    rintro p ⟨⟩

/-- While cycles are removed, between two objects: what no longer holds is a
destroyed value. -/
structure Removing (body : Ptr → Body) (roots all live H : List Ptr) (rt : JSRuntime) : Prop
    extends Inv body roots [] H rt where
  phase : rt.gcPhase = .removeCycles
  gc : rt.gcObjList = live
  zombies : ∀ q ∈ rt.linked, q ∈ H ∨ isValueAt body q = true
  tmp : ∀ q ∈ rt.tmpObjList, q ∈ H
  inside : ∀ q ∈ rt.linked, q ∈ all

/-- A part waits in `gc_zero_ref_count_list` for its last reference. -/
theorem Removing.park (h : Removing body roots all L H rt) (hp : p ∈ rt.tmpObjList)
    (hv : isValueAt body p = false) : Removing body roots all L H (toZombie rt p) := by
  have hl : p ∈ rt.linked := mem_linked.2 (.inr (.inl hp))
  have hperm := toZombie_linked hl h.nodup
  have hg : p ∉ rt.gcObjList := fun hc =>
    (List.nodup_append.1 (List.nodup_append.1 h.nodup).1).2.2 p hc p hp rfl
  have hgc : (toZombie rt p).gcObjList = rt.gcObjList := List.erase_of_not_mem hg
  refine ⟨⟨h.toCounted.of_lists rfl hperm fun q hq => hgc ▸ hq, fun q hq => h.idle q (hperm.mem_iff.1 hq),
    h.parts, fun hc => absurd h.phase hc, fun hc => ?_, fun _ => ?_⟩, h.phase, hgc.trans h.gc,
    fun q hq => h.zombies q (hperm.mem_iff.1 hq), fun q hq => h.tmp q (List.mem_of_mem_erase hq),
    fun q hq => h.inside q (hperm.mem_iff.1 hq)⟩
  · exact absurd (h.phase.symm.trans hc) (by decide)
  · rw [hgc]
    refine ⟨(h.cycling h.phase).1, fun q hq hqH => ?_⟩
    rcases List.mem_append.1 hq with hq | hq
    · exact (h.cycling h.phase).2 q (List.mem_of_mem_erase hq) hqH
    · rw [List.mem_singleton] at hq
      rw [hq]
      exact hv

include hT in
theorem wp_gcFreeCyclesLoop {free : Ptr → M Unit} (hfree : FreesBelow body roots nested 4 free) {fuel : Nat}
    (hfuel : rt.tmpObjList.length < fuel) (h : Removing body roots all L H rt) :
    WP (gcFreeCyclesLoop free fuel) rt
      (fun _ rt' => ∃ H', Removing body roots all L H' rt' ∧ rt'.tmpObjList = []) fun _ _ => False := by
  induction fuel generalizing H rt with
  | zero => omega
  | succ fuel ih =>
    refine .bind (.of_get ?_)
    split
    · exact .of_pure ⟨H, h, ‹_›⟩
    · rename_i p l hpl
      have hpt : p ∈ rt.tmpObjList := by simp [hpl]
      have hpH := h.tmp p hpt
      have hl := h.held p hpH
      have htn : rt.tmpObjList.Nodup := (List.nodup_append.1 (List.nodup_append.1 h.nodup).1).2.1
      have hlen : (rt.tmpObjList.erase p).length < fuel := by
        have := List.length_pos_of_mem hpt
        rw [List.length_erase_of_mem hpt]
        omega
      obtain ⟨o, ho⟩ := (h.linked_iff p).1 hl
      have htype : o.body.type.isValue = isValueAt body p := by rw [h.types p o ho, isValueAt]
      refine wp_fetch_bind ho ?_
      rw [htype]
      refine .ite (fun hv => ?_) fun hv => ?_
      · have hg : p ∉ rt.gcObjList := fun hc =>
          (List.nodup_append.1 (List.nodup_append.1 h.nodup).1).2.2 p hc p hpt rfl
        refine WP.seq (wp_freeGcObject hT hfree h.toInv (C := nested) (by rw [h.phase]; rintro ⟨⟩)
          ⟨hpH, hv, .inr h.phase, fun _ => hg⟩) (fun _ _ h => h) ?_
        rintro - rt' ⟨H', hi, hd⟩
        obtain ⟨hgc, htmp⟩ := hd.lists h.phase
        refine ih (Nat.lt_of_le_of_lt htmp.length_le hlen)
          ⟨hi, hd.phase.trans h.phase, hgc.trans h.gc, fun q hq => ?_, fun q hq => ?_,
            fun q hq => ?_⟩
        · rcases hd.new q hq with hq | ⟨hq, hn⟩ | ⟨-, rfl⟩
          · exact .inl hq
          · exact .inr ((h.zombies q hq).resolve_left hn)
          · exact .inr hv
        · have hq' := htn.mem_erase_iff.1 (htmp.subset hq)
          rcases hd.new q (mem_linked.2 (.inr (.inl hq))) with hq | ⟨-, hn⟩ | ⟨-, rfl⟩
          · exact hq
          · exact absurd (h.tmp q hq'.2) hn
          · exact absurd rfl hq'.1
        · rcases hd.new q hq with hq | ⟨hq, -⟩ | ⟨-, rfl⟩
          · exact h.inside q (h.held q (List.mem_of_mem_erase (hd.holders.subset hq)))
          · exact h.inside q hq
          · exact h.inside q hl
      · have hp := h.park hpt (by simpa using hv)
        exact .bind (wp_listDel hl (.bind (.of_modify (ih hlen hp))))

include hT in
/-- In the end no part waits any more: what held it would be a part too, of a
greater depth. -/
theorem Removing.isValueAt_zero (h : Removing body roots all L H rt) (htmp : rt.tmpObjList = [])
    (hlive : ∀ p, p ∈ L ↔ Reach (fun q => children (body q)) roots p) :
    ∀ p ∈ rt.gcZeroRefCountList, isValueAt body p = true := by
  have hgz : ∀ q ∈ rt.gcZeroRefCountList, q ∉ L := fun q hq hc =>
    (List.nodup_append.1 h.nodup).2.2 q (List.mem_append_left _ (h.gc ▸ hc)) q hq rfl
  have hparent : ∀ p ∈ rt.gcZeroRefCountList, isValueAt body p = false →
      ∃ q ∈ rt.gcZeroRefCountList, isValueAt body q = false ∧ depth (body p).type < depth (body q).type := by
    intro p hp hv
    have hpH : p ∈ H := by
      refine (h.zombies p (mem_linked.2 (.inr (.inr hp)))).resolve_right ?_
      rw [hv]
      decide
    rcases owed_pos_iff.1 (h.parts p hpH hv) with hr | ⟨q, hq, hk⟩
    · exact absurd ((hlive p).2 (.root hr)) (hgz p hp)
    · have hqz : q ∈ rt.gcZeroRefCountList := by
        rcases mem_linked.1 (h.held q hq) with hqg | hqt | hqz
        · rw [h.gc, hlive] at hqg
          exact absurd ((hlive p).2 (hqg.child hk)) (hgz p hp)
        · rw [htmp] at hqt
          cases hqt
        · exact hqz
      have hqv := (h.cycling h.phase).2 q hqz hq
      exact ⟨q, hqz, hqv, depth_lt_of_mem hT hqv hk⟩
  have hnone : ∀ n p, p ∈ rt.gcZeroRefCountList → isValueAt body p = false → 4 - depth (body p).type ≠ n := by
    intro n
    induction n using Nat.strongRecOn with
    | ind n ih =>
      intro p hp hv he
      obtain ⟨q, hq, hqv, hlt⟩ := hparent p hp hv
      have hle : depth (body q).type ≤ 3 := by cases (body q).type <;> decide
      exact ih (4 - depth (body q).type) (by omega) q hq hqv rfl
  intro p hp
  by_contra hv
  exact hnone _ p hp (by simpa using hv) rfl

/-- The second loop of `gc_free_cycles` frees the members of the list. -/
theorem wp_gcFreeZombiesLoop {fuel : Nat} (hz : rt.gcZeroRefCountList = seen ++ rest)
    (hnd : (seen ++ rest).Nodup) (hfuel : rest.length ≤ fuel)
    (h : ∀ p ∈ rest, ∃ o, rt.objs p = some o ∧ o.body.type.isValue = true) :
    WP (gcFreeZombiesLoop fuel rest.head?) rt
      (fun _ rt' => ∃ objs, rt' = { rt with objs := objs } ∧ (∀ p ∈ rest, objs p = none) ∧
        ∀ p, p ∉ rest → objs p = rt.objs p) fun _ _ => False := by
  induction rest generalizing seen fuel rt with
  | nil => cases fuel <;> exact .of_pure ⟨rt.objs, rfl, by simp, by simp⟩
  | cons p rest ih =>
    obtain _ | fuel := fuel
    · simp at hfuel
    obtain ⟨o, ho, hv⟩ := h p List.mem_cons_self
    have hp : p ∉ seen := fun hc => (List.nodup_append.1 hnd).2.2 p hc p List.mem_cons_self rfl
    have hpr : p ∉ rest := (List.nodup_cons.1 (List.nodup_append.1 hnd).2.1).1
    have hl : (seen ++ [p]) ++ rest = seen ++ p :: rest := by rw [List.append_assoc, List.singleton_append]
    refine .bind (wp_next hz hp (wp_fetch_bind ho (.bind (wp_assert hv (.bind (wp_jsFreeRt ho ?_))))))
    have hz' : (rt.drop p).gcZeroRefCountList = (seen ++ [p]) ++ rest := hz.trans hl.symm
    refine (ih hz' (hl ▸ hnd) (by simpa using hfuel) ?_).mono ?_
      fun _ _ h => h
    · intro q hq
      rw [drop_of_ne (ne_of_mem_of_not_mem hq hpr)]
      exact h q (List.mem_cons_of_mem p hq)
    · rintro - rt' ⟨objs, rfl, hnone, hsame⟩
      refine ⟨objs, rfl, fun q hq => ?_, fun q hq => ?_⟩
      · rcases List.mem_cons.1 hq with rfl | hq
        · rw [hsame q hpr, drop_self]
        · exact hnone q hq
      · rw [List.mem_cons, not_or] at hq
        rw [hsame q hq.2, drop_of_ne hq.1]

include hT in
theorem wp_gcFreeCycles {fuel : Nat} {dead : List Ptr} (hclosed : ∀ p, p ∉ L → due body roots L p = 0)
    (hpos : ∀ p ∈ L, 0 < due body roots L p) (hL : L.Nodup) (hfuel : L.length + 3 ≤ fuel)
    (h : Sorted body roots L live dead rt) :
    WP (gcFreeCycles fuel) rt (fun _ rt' => Settled body roots live rt') fun _ _ => False := by
  have hi := h.inv hclosed hpos hL
  have hlinked : ({ rt with gcPhase := .removeCycles } : JSRuntime).linked = live ++ dead := by
    simp [JSRuntime.linked, h.gc, h.tmp, h.zero]
  have hrem : Removing body roots L live (live ++ dead) { rt with gcPhase := .removeCycles } := by
    refine ⟨hi, rfl, h.gc, fun q hq => .inl (hlinked ▸ hq), fun q hq => ?_, fun q hq => ?_⟩
    · rw [← hlinked]
      exact mem_linked.2 (.inr (.inl hq))
    · rw [hlinked] at hq
      exact (h.mem_iff q).1 hq
  have hlen : ∀ l : List Ptr, l.Nodup → (∀ p ∈ l, p ∈ L) → l.length < fuel := by
    intro l hl hs
    have := (List.subperm_of_subset hl hs).length_le
    omega
  refine .bind (.of_modify (WP.seq (wp_gcFreeCyclesLoop hT ((frees_freeRef hT fuel).mono (by omega)) ?_ hrem)
    (fun _ _ h => h) ?_))
  · have htmp : rt.tmpObjList = dead := by rw [h.tmp, List.append_nil]
    show rt.tmpObjList.length < fuel
    rw [htmp]
    exact hlen dead (List.nodup_append.1 h.nodup).2.1 fun p hp =>
      (h.mem_iff p).1 (List.mem_append_right live hp)
  rintro - rt₁ ⟨H, h₁, htmp₁⟩
  have hvalues := h₁.isValueAt_zero hT htmp₁ h.live_iff
  have hnd := h₁.nodup
  simp only [JSRuntime.linked, htmp₁, List.append_nil, h₁.gc] at hnd
  obtain ⟨hln, hzn, -⟩ := List.nodup_append.1 hnd
  refine .bind (.of_modify (.bind (.of_get ?_)))
  refine WP.seq (wp_gcFreeZombiesLoop (List.nil_append _).symm hzn ?_ ?_)
    (fun _ _ h => h) ?_
  · exact Nat.le_of_lt (hlen _ hzn fun p hp => h₁.inside p (mem_linked.2 (.inr (.inr hp))))
  · intro p hp
    obtain ⟨o, ho⟩ := (h₁.linked_iff p).1 (mem_linked.2 (.inr (.inr hp)))
    refine ⟨o, ho, ?_⟩
    rw [h₁.types p o ho]
    exact hvalues p hp
  · rintro - rt₂ ⟨objs, rfl, hnone, hsame⟩
    have hHlive : ∀ p, p ∈ H ↔ p ∈ live := by
      intro p
      refine ⟨fun hp => ?_, fun hp => ((h₁.cycling h₁.phase).1 p (h₁.gc ▸ hp)).1⟩
      rcases mem_linked.1 (h₁.held p hp) with hg | ht | hz
      · exact h₁.gc ▸ hg
      · rw [htmp₁] at ht
        cases ht
      · have hv := (h₁.cycling h₁.phase).2 p hz hp
        rw [hvalues p hz] at hv
        cases hv
    have hperm : H.Perm live := (List.perm_ext_iff_of_nodup h₁.holders hln).2 hHlive
    refine .of_modify ⟨h₁.gc, htmp₁, rfl, rfl, hln, fun p hp => ⟨?_, ?_⟩, fun p hp => ⟨?_, ?_⟩⟩
    · have hg : p ∈ rt₁.gcObjList := h₁.gc ▸ hp
      have hz : p ∉ rt₁.gcZeroRefCountList := fun hz =>
        (List.nodup_append.1 h₁.nodup).2.2 p (List.mem_append_left _ hg) p hz rfl
      obtain ⟨o, ho⟩ := (h₁.linked_iff p).1 (mem_linked.2 (.inl hg))
      have hc := h₁.counts p o ho
      have hm := h₁.marks p hg o ho
      have hb := h₁.bodies p ((hHlive p).2 hp) o ho
      have hd : due body ([] ++ roots) H p = due body roots live p := owed_perm_holders hperm roots p
      refine (hsame p hz).trans (ho.trans ?_)
      rcases o with ⟨n, m, b⟩
      simp only at hc hm hb
      rw [hc, hm, hb, hd]
    · exact ((h.live_iff p).1 hp).owed_pos fun q hq => (h.live_iff q).2 hq
    · by_cases hz : p ∈ rt₁.gcZeroRefCountList
      · exact hnone p hz
      · refine (hsame p hz).trans ?_
        rcases ho : rt₁.objs p with _ | o
        · rfl
        · rcases mem_linked.1 ((h₁.linked_iff p).2 ⟨o, ho⟩) with hg | ht | hz'
          · exact absurd (h₁.gc ▸ hg) hp
          · rw [htmp₁] at ht
            cases ht
          · exact absurd hz' hz
    · rw [due, owed_eq_zero_iff]
      refine ⟨fun hr => hp ((h.live_iff p).2 (.root hr)), fun q hq hk => hp ?_⟩
      exact (h.live_iff p).2 (((h.live_iff q).1 hq).child hk)

include hT in
theorem wp_jsRunGC {fuel : Nat} (h : Settled body roots L rt) (hfuel : L.length + 3 ≤ fuel) :
    WP (jsRunGC fuel) rt (fun _ rt' => ∃ live, Settled body roots live rt' ∧
      ∀ p, p ∈ live ↔ Reach (fun q => children (body q)) roots p) fun _ _ => False := by
  obtain ⟨rfl, -, hzero, hphase, hL, hobjs, habsent⟩ := h
  have hclosed : ∀ p, p ∉ rt.gcObjList → due body roots rt.gcObjList p = 0 := fun p hp => (habsent p hp).2
  have h₀ : Decref body rt.gcObjList [] rt.gcObjList roots rt.gcObjList { rt with tmpObjList := [] } := by
    refine ⟨fun p hp => ?_, habsent, ⟨[], rfl, List.nodup_nil, ?_⟩, ⟨List.nodup_nil, ?_⟩, hzero, hphase⟩
    · rw [decide_eq_false List.not_mem_nil]
      exact (hobjs p hp).1
    · simp
    · simp
  refine WP.seq (wp_gcDecref hT hL (by omega) h₀) (fun _ _ h => h) fun _ rt₁ h₁ => ?_
  refine WP.seq (wp_gcScan hT hclosed (by omega) h₁) (fun _ _ h => h) ?_
  rintro - rt₂ ⟨live, dead, h₂⟩
  refine (wp_gcFreeCycles hT hclosed (fun p hp => (hobjs p hp).2) hL hfuel h₂).mono ?_ fun _ _ h => h
  exact fun _ rt₃ h₃ => ⟨live, h₃, h₂.live_iff⟩

end CkbJs.Proof.Gc
