import CkbJs.Spec.Gc

/-!
# Counts in the middle of an operation

While references are released, some objects no longer count as holders: their
references have become `pending` releases. `Counted body R H rt` says that
every count is what the references `R` and the holders `H` owe, where `body`
is what the objects held at the beginning. `Placed` says which list an object
is in, by the phase. Together they are `Inv`, which every release keeps.
-/

namespace CkbJs.Proof.Gc

open CkbJs.Heap CkbJs.Impl.Gc CkbJs.Spec.Gc

/-! ## Primitives -/

section

variable {α : Type} {rt : JSRuntime} {p q : Ptr} {o : GcObject}

@[simp] theorem store_linked (rt : JSRuntime) (p : Ptr) (o : GcObject) : (rt.store p o).linked = rt.linked :=
  rfl

@[simp] theorem drop_linked (rt : JSRuntime) (p : Ptr) : (rt.drop p).linked = rt.linked := rfl

@[simp] theorem unlink_objs (rt : JSRuntime) (p : Ptr) : (rt.unlink p).objs = rt.objs := rfl

theorem store_self (rt : JSRuntime) (p : Ptr) (o : GcObject) : (rt.store p o).objs p = some o :=
  Function.update_self ..

theorem store_of_ne (h : q ≠ p) (o : GcObject) : (rt.store p o).objs q = rt.objs q :=
  Function.update_of_ne h ..

theorem drop_self (rt : JSRuntime) (p : Ptr) : (rt.drop p).objs p = none := Function.update_self ..

theorem drop_of_ne (h : q ≠ p) : (rt.drop p).objs q = rt.objs q := Function.update_of_ne h ..

theorem mem_linked : p ∈ rt.linked ↔
    p ∈ rt.gcObjList ∨ p ∈ rt.tmpObjList ∨ p ∈ rt.gcZeroRefCountList := by
  simp only [JSRuntime.linked, List.mem_append, or_assoc]

theorem unlink_sublist (rt : JSRuntime) (p : Ptr) : (rt.unlink p).linked.Sublist rt.linked :=
  (List.erase_sublist.append List.erase_sublist).append List.erase_sublist

theorem mem_unlink (h : rt.linked.Nodup) : q ∈ (rt.unlink p).linked ↔ q ≠ p ∧ q ∈ rt.linked := by
  have ⟨hgt, hz, _⟩ := List.nodup_append.1 h
  have ⟨hg, ht, _⟩ := List.nodup_append.1 hgt
  simp only [mem_linked, JSRuntime.unlink, hg.mem_erase_iff, ht.mem_erase_iff, hz.mem_erase_iff]
  tauto

variable {Q : α → JSRuntime → Prop} {R : Stop → JSRuntime → Prop}

theorem wp_fetch {Q : GcObject → JSRuntime → Prop} (h : rt.objs p = some o) (hQ : Q o rt) :
    WP (fetch p) rt Q R := by
  refine .bind (.of_get ?_)
  rw [h]
  exact .of_pure hQ

theorem wp_fetch_bind {f : GcObject → M α} (h : rt.objs p = some o) (hQ : WP (f o) rt Q R) :
    WP (fetch p >>= f) rt Q R :=
  .bind (wp_fetch h hQ)

theorem wp_assert {b : Bool} {Q : Unit → JSRuntime → Prop} (hb : b = true) (hQ : Q ⟨⟩ rt) :
    WP (assert b) rt Q R := by
  rw [assert, if_pos hb]
  exact .of_pure hQ

theorem wp_listDel {Q : Unit → JSRuntime → Prop} (h : p ∈ rt.linked) (hQ : Q ⟨⟩ (rt.unlink p)) :
    WP (listDel p) rt Q R := by
  refine .bind (.of_get ?_)
  rw [if_pos h]
  exact .of_modify hQ

theorem wp_jsFreeRt {Q : Unit → JSRuntime → Prop} (h : rt.objs p = some o) (hQ : Q ⟨⟩ (rt.drop p)) :
    WP (jsFreeRt p) rt Q R :=
  wp_fetch_bind h (.of_modify hQ)

theorem wp_decRefCount {Q : Int → JSRuntime → Prop} (h : rt.objs p = some o)
    (hQ : Q (o.refCount - 1) (rt.store p { o with refCount := o.refCount - 1 })) :
    WP (decRefCount p) rt Q R :=
  wp_fetch_bind h (.bind (.of_modify (.of_pure hQ)))

theorem wp_dupRef {Q : Unit → JSRuntime → Prop} (h : rt.objs p = some o)
    (hQ : Q ⟨⟩ (rt.store p { o with refCount := o.refCount + 1 })) : WP (dupRef p) rt Q R :=
  wp_fetch_bind h (.of_modify hQ)

end

/-! ## The invariant -/

section

variable {body : Ptr → Body} {roots P H R R' : List Ptr} {rt rt' : JSRuntime} {p q : Ptr} {o : GcObject}

/-- What the references `R` and the holders `H` owe an object. -/
def due (body : Ptr → Body) (R H : List Ptr) (p : Ptr) : Nat :=
  owed (fun q => children (body q)) R H p

def isValueAt (body : Ptr → Body) (p : Ptr) : Bool := (body p).type.isValue

structure Counted (body : Ptr → Body) (R H : List Ptr) (rt : JSRuntime) : Prop where
  nodup : rt.linked.Nodup
  linked_iff : ∀ p, p ∈ rt.linked ↔ ∃ o, rt.objs p = some o
  holders : H.Nodup
  held : ∀ p ∈ H, p ∈ rt.linked
  counts : ∀ p o, rt.objs p = some o → o.refCount = due body R H p
  dangling : ∀ p, rt.objs p = none → due body R H p = 0
  bodies : ∀ p ∈ H, ∀ o, rt.objs p = some o → o.body = body p
  types : ∀ p o, rt.objs p = some o → o.body.type = (body p).type
  marks : ∀ p ∈ rt.gcObjList, ∀ o, rt.objs p = some o → o.mark = false

/-- Where objects are. In `idle` are the objects that are being destroyed or
have been. Outside of the removal of cycles, a count that falls to zero moves
an object to `gc_zero_ref_count_list`; while cycles are removed, `gc_obj_list`
supports itself. -/
structure Placed (body : Ptr → Body) (roots R H : List Ptr) (rt : JSRuntime) : Prop where
  idle : ∀ p ∈ rt.linked, p ∉ H →
    due body R H p = 0 ∨ rt.gcPhase = .removeCycles ∧ isValueAt body p
  parts : ∀ p ∈ H, isValueAt body p = false → 0 < due body R H p
  falling : rt.gcPhase ≠ .removeCycles →
    rt.tmpObjList = [] ∧ ∀ p ∈ H, p ∈ rt.gcObjList ↔ 0 < due body R H p
  quiet : rt.gcPhase = .none → rt.gcZeroRefCountList = []
  cycling : rt.gcPhase = .removeCycles →
    (∀ p ∈ rt.gcObjList, p ∈ H ∧ 0 < due body roots rt.gcObjList p) ∧
      ∀ p ∈ rt.gcZeroRefCountList, p ∈ H → isValueAt body p = false

structure Inv (body : Ptr → Body) (roots P H : List Ptr) (rt : JSRuntime) : Prop
    extends Counted body (P ++ roots) H rt, Placed body roots (P ++ roots) H rt

theorem due_perm (h : R.Perm R') (H : List Ptr) (p : Ptr) : due body R H p = due body R' H p :=
  owed_perm_roots h H p

theorem due_cons_self (c : Ptr) (R H : List Ptr) : due body (c :: R) H c = due body R H c + 1 :=
  owed_cons_self c R H

theorem due_cons_of_ne (h : p ≠ q) (R H : List Ptr) : due body (q :: R) H p = due body R H p :=
  owed_cons_of_ne h R H

theorem due_le_cons (body : Ptr → Body) (c : Ptr) (R H : List Ptr) (p : Ptr) :
    due body R H p ≤ due body (c :: R) H p :=
  owed_le (List.sublist_cons_self c R) (List.Sublist.refl H) p

theorem due_erase (h : p ∈ H) (R : List Ptr) (q : Ptr) :
    due body (children (body p) ++ R) (H.erase p) q = due body R H q :=
  owed_erase h R q

namespace Counted

theorem of_perm (h : Counted body R H rt) (hR : R.Perm R') : Counted body R' H rt :=
  { h with
    counts := fun p o ho => by rw [h.counts p o ho, due_perm hR]
    dangling := fun p ho => by rw [← due_perm hR, h.dangling p ho] }

theorem exists_obj (h : Counted body R H rt) (hp : 0 < due body R H p) : ∃ o, rt.objs p = some o := by
  rcases ho : rt.objs p with _ | o
  · have := h.dangling p ho
    omega
  · exact ⟨o, rfl⟩

/-- Only the lists change. -/
theorem of_lists (h : Counted body R H rt) (hobjs : rt'.objs = rt.objs)
    (hl : rt'.linked.Perm rt.linked) (hg : ∀ p ∈ rt'.gcObjList, p ∈ rt.gcObjList) :
    Counted body R H rt' where
  nodup := hl.nodup_iff.2 h.nodup
  linked_iff p := by rw [hl.mem_iff, hobjs, h.linked_iff]
  holders := h.holders
  held p hp := hl.mem_iff.2 (h.held p hp)
  counts := hobjs ▸ h.counts
  dangling := hobjs ▸ h.dangling
  bodies := hobjs ▸ h.bodies
  types := hobjs ▸ h.types
  marks p hp := hobjs ▸ h.marks p (hg p hp)

/-- An object is stored again, with a count for the references `R'`. -/
theorem store (h : Counted body R H rt) (ho : rt.objs p = some o) {o' : GcObject}
    (hc : o'.refCount = due body R' H p) (hne : ∀ q, q ≠ p → due body R' H q = due body R H q)
    (hm : o'.mark = o.mark) (ht : o'.body.type = o.body.type) (hb : p ∈ H → o'.body = o.body) :
    Counted body R' H (rt.store p o') := by
  have hs : ∀ q o₁, (rt.store p o').objs q = some o₁ → q = p ∧ o₁ = o' ∨ q ≠ p ∧ rt.objs q = some o₁ := by
    intro q o₁ h₁
    rcases eq_or_ne q p with rfl | hq
    · rw [store_self] at h₁
      exact .inl ⟨rfl, (Option.some.inj h₁).symm⟩
    · rw [store_of_ne hq] at h₁
      exact .inr ⟨hq, h₁⟩
  refine ⟨h.nodup, fun q => ?_, h.holders, h.held, fun q o₁ h₁ => ?_, fun q h₁ => ?_,
    fun q hq o₁ h₁ => ?_, fun q o₁ h₁ => ?_, fun q hq o₁ h₁ => ?_⟩
  · rw [store_linked, h.linked_iff]
    rcases eq_or_ne q p with rfl | hq
    · simp [store_self, ho]
    · rw [store_of_ne hq]
  · rcases hs q o₁ h₁ with ⟨rfl, rfl⟩ | ⟨hq, h₁⟩
    · exact hc
    · rw [hne q hq, h.counts q o₁ h₁]
  · rcases eq_or_ne q p with rfl | hq
    · rw [store_self] at h₁
      cases h₁
    · rw [store_of_ne hq] at h₁
      rw [hne q hq, h.dangling q h₁]
  · rcases hs q o₁ h₁ with ⟨rfl, rfl⟩ | ⟨_, h₁⟩
    · rw [hb hq, h.bodies q hq o ho]
    · exact h.bodies q hq o₁ h₁
  · rcases hs q o₁ h₁ with ⟨rfl, rfl⟩ | ⟨_, h₁⟩
    · rw [ht, h.types q o ho]
    · exact h.types q o₁ h₁
  · rcases hs q o₁ h₁ with ⟨rfl, rfl⟩ | ⟨_, h₁⟩
    · rw [hm, h.marks q hq o ho]
    · exact h.marks q hq o₁ h₁

/-- A pending release takes place. -/
theorem dec (h : Counted body (p :: R) H rt) (ho : rt.objs p = some o) :
    Counted body R H (rt.store p { o with refCount := o.refCount - 1 }) := by
  refine h.store ho ?_ (fun q hq => (due_cons_of_ne hq R H).symm) rfl rfl fun _ => rfl
  show o.refCount - 1 = _
  rw [h.counts p o ho, due_cons_self]
  omega

/-- What an object that does not hold anything has in its fields does not matter. -/
theorem setBody (h : Counted body R H rt) (hp : p ∉ H) (ho : rt.objs p = some o) {b : Body}
    (hb : b.type = o.body.type) : Counted body R H (rt.store p { o with body := b }) :=
  h.store ho (h.counts p o ho) (fun _ _ => rfl) rfl hb fun hp' => absurd hp' hp

/-- The references of a holder become pending. -/
theorem unhold (h : Counted body R H rt) (hp : p ∈ H) :
    Counted body (children (body p) ++ R) (H.erase p) rt :=
  { h with
    holders := h.holders.erase p
    held := fun q hq => h.held q (List.mem_of_mem_erase hq)
    counts := fun q o ho => by rw [h.counts q o ho, due_erase hp]
    dangling := fun q ho => by rw [due_erase hp, h.dangling q ho]
    bodies := fun q hq => h.bodies q (List.mem_of_mem_erase hq) }

/-- An object without references is freed. -/
theorem drop (h : Counted body R H rt) (hp : p ∉ H) (h0 : due body R H p = 0) :
    Counted body R H ((rt.unlink p).drop p) where
  nodup := h.nodup.sublist (unlink_sublist rt p)
  linked_iff q := by
    rw [drop_linked, mem_unlink h.nodup, h.linked_iff]
    rcases eq_or_ne q p with rfl | hq
    · simp [drop_self]
    · rw [drop_of_ne hq]
      exact and_iff_right hq
  holders := h.holders
  held q hq := (mem_unlink h.nodup).2 ⟨ne_of_mem_of_not_mem hq hp, h.held q hq⟩
  counts q o ho := by
    rcases eq_or_ne q p with rfl | hq
    · rw [drop_self] at ho
      cases ho
    · rw [drop_of_ne hq] at ho
      exact h.counts q o ho
  dangling q ho := by
    rcases eq_or_ne q p with rfl | hq
    · exact h0
    · rw [drop_of_ne hq] at ho
      exact h.dangling q ho
  bodies q hq o ho := by
    rw [drop_of_ne (ne_of_mem_of_not_mem hq hp)] at ho
    exact h.bodies q hq o ho
  types q o ho := by
    rcases eq_or_ne q p with rfl | hq
    · rw [drop_self] at ho
      cases ho
    · rw [drop_of_ne hq] at ho
      exact h.types q o ho
  marks q hq o ho := by
    rcases eq_or_ne q p with rfl | hne
    · rw [drop_self] at ho
      cases ho
    · rw [drop_of_ne hne] at ho
      exact h.marks q (List.mem_of_mem_erase hq) o ho

end Counted

/-- A heap between two operations: the objects `live`, with their references
counted. -/
structure Settled (body : Ptr → Body) (roots live : List Ptr) (rt : JSRuntime) : Prop where
  gc : rt.gcObjList = live
  tmp : rt.tmpObjList = []
  zero : rt.gcZeroRefCountList = []
  phase : rt.gcPhase = .none
  nodup : live.Nodup
  objs : ∀ p ∈ live, rt.objs p = some ⟨due body roots live p, false, body p⟩ ∧ 0 < due body roots live p
  absent : ∀ p, p ∉ live → rt.objs p = none ∧ due body roots live p = 0

end

end CkbJs.Proof.Gc
