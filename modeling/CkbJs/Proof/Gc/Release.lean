import CkbJs.Proof.Gc.Counts

/-!
# Releasing references

A program that releases the references `cs` (`Frees`) turns pending releases
into lower counts, and destroys what is no longer referred to. The references
of a part of an object (a shape, a variable, an async function, a context) are
released at once, so their depth is bounded by the types (`depth`); the values
wait in `gc_zero_ref_count_list`, whose loop each step takes one holder out
of. `frees_freeRef` and `freeRef_spec` are the main results: the release of
one reference, while objects are destroyed and from outside.
-/

namespace CkbJs.Proof.Gc

open CkbJs.Heap CkbJs.Impl.Gc CkbJs.Spec.Gc

variable {body : Ptr → Body} {roots P H H' R : List Ptr} {rt rt' : JSRuntime} {p q : Ptr}
  {o : GcObject}

/-! ## Frames -/

/-- What a release does not change: objects that hold nothing stay where they
are, and none are added. -/
structure Frame (rt : JSRuntime) (H : List Ptr) (rt' : JSRuntime) (H' : List Ptr) : Prop where
  phase : rt'.gcPhase = rt.gcPhase
  holders : H'.Sublist H
  stays : ∀ q ∈ rt.linked, q ∉ H → q ∈ rt'.linked
  new : ∀ q ∈ rt'.linked, q ∈ H' ∨ q ∈ rt.linked ∧ q ∉ H
  zero : ∀ q ∈ rt'.gcZeroRefCountList, q ∈ H' ∨ q ∈ rt.gcZeroRefCountList ∧ q ∉ H
  lists : rt.gcPhase = .removeCycles →
    rt'.gcObjList = rt.gcObjList ∧ rt'.tmpObjList.Sublist rt.tmpObjList

namespace Frame

theorem of_linked (hphase : rt'.gcPhase = rt.gcPhase) (hl : rt'.linked = rt.linked)
    (hz : rt'.gcZeroRefCountList = rt.gcZeroRefCountList) (hg : rt'.gcObjList = rt.gcObjList)
    (ht : rt'.tmpObjList = rt.tmpObjList) : Frame rt H rt' H where
  phase := hphase
  holders := List.Sublist.refl H
  stays _ hq _ := hl ▸ hq
  new q hq := (em (q ∈ H)).imp_right fun h => ⟨hl ▸ hq, h⟩
  zero q hq := (em (q ∈ H)).imp_right fun h => ⟨hz ▸ hq, h⟩
  lists _ := ⟨hg, ht ▸ List.Sublist.refl _⟩

theorem refl (rt : JSRuntime) (H : List Ptr) : Frame rt H rt H := of_linked rfl rfl rfl rfl rfl

theorem store (rt : JSRuntime) (H : List Ptr) (p : Ptr) (o : GcObject) : Frame rt H (rt.store p o) H :=
  of_linked rfl rfl rfl rfl rfl

theorem trans {rt₁ rt₂ rt₃ : JSRuntime} {H₁ H₂ H₃ : List Ptr} (h : Frame rt₁ H₁ rt₂ H₂)
    (h' : Frame rt₂ H₂ rt₃ H₃) : Frame rt₁ H₁ rt₃ H₃ where
  phase := h'.phase.trans h.phase
  holders := h'.holders.trans h.holders
  stays q hq hn := h'.stays q (h.stays q hq hn) fun hc => hn (h.holders.subset hc)
  new q hq := by
    rcases h'.new q hq with hq | ⟨hq, hn⟩
    · exact .inl hq
    · exact .inr ((h.new q hq).resolve_left hn)
  zero q hq := by
    rcases h'.zero q hq with hq | ⟨hq, hn⟩
    · exact .inl hq
    · exact .inr ((h.zero q hq).resolve_left hn)
  lists hp := by
    have ⟨hg, ht⟩ := h.lists hp
    have ⟨hg', ht'⟩ := h'.lists (h.phase.trans hp)
    exact ⟨hg'.trans hg, ht'.trans ht⟩

end Frame

/-! ## One object -/

namespace Inv

theorem of_perm {P' : List Ptr} (h : Inv body roots P H rt) (hP : P.Perm P') :
    Inv body roots P' H rt := by
  have hR : (P ++ roots).Perm (P' ++ roots) := hP.append_right roots
  refine ⟨h.toCounted.of_perm hR, fun q hq hn => ?_, fun q hq hv => ?_, fun hp => ?_, h.quiet, h.cycling⟩
  · rw [← due_perm hR]
    exact h.idle q hq hn
  · rw [← due_perm hR]
    exact h.parts q hq hv
  · refine ⟨(h.falling hp).1, fun q hq => ?_⟩
    rw [← due_perm hR]
    exact (h.falling hp).2 q hq

/-- The object a pending release is for. -/
theorem exists_pending (h : Inv body roots (p :: P) H rt) :
    ∃ o, rt.objs p = some o ∧ p ∈ rt.linked ∧ o.refCount - 1 = due body (P ++ roots) H p := by
  have hd : 0 < due body (p :: P ++ roots) H p := by
    rw [List.cons_append, due_cons_self]
    omega
  obtain ⟨o, ho⟩ := h.exists_obj hd
  refine ⟨o, ho, (h.linked_iff p).2 ⟨o, ho⟩, ?_⟩
  rw [h.counts p o ho, List.cons_append, due_cons_self]
  omega

/-- Who waits for a release and is not a value being removed still holds. -/
theorem mem_of_pending (h : Inv body roots (p :: P) H rt)
    (hp : rt.gcPhase ≠ .removeCycles ∨ isValueAt body p = false) : p ∈ H := by
  obtain ⟨o, ho, hl, -⟩ := h.exists_pending
  by_contra hn
  rcases h.idle p hl hn with h0 | ⟨hc, hv⟩
  · rw [List.cons_append, due_cons_self] at h0
    omega
  · rcases hp with hp | hp
    · exact hp hc
    · rw [hv] at hp
      cases hp

/-- A count falls, but the object stays where it is. -/
theorem dec (h : Inv body roots (p :: P) H rt) (ho : rt.objs p = some o)
    (hp : 0 < due body (P ++ roots) H p ∨ rt.gcPhase = .removeCycles ∧ isValueAt body p) :
    Inv body roots P H (rt.store p { o with refCount := o.refCount - 1 }) := by
  refine ⟨h.toCounted.dec ho, fun q hq hn => ?_, fun q hq hv => ?_, fun hph => ?_, h.quiet, h.cycling⟩
  · refine (h.idle q hq hn).imp_left fun h0 => ?_
    have := due_le_cons body p (P ++ roots) H q
    rw [List.cons_append] at h0
    omega
  · rcases eq_or_ne q p with rfl | hne
    · refine hp.resolve_right ?_
      rintro ⟨-, hv'⟩
      rw [hv'] at hv
      cases hv
    · have := h.parts q hq hv
      rwa [List.cons_append, due_cons_of_ne hne] at this
  · refine ⟨(h.falling hph).1, fun q hq => ?_⟩
    have hf := (h.falling hph).2 q hq
    rcases eq_or_ne q p with rfl | hne
    · have hd := hp.resolve_right fun hc => hph hc.1
      rw [List.cons_append, due_cons_self] at hf
      exact iff_of_true (hf.2 (by omega)) hd
    · rwa [List.cons_append, due_cons_of_ne hne] at hf

end Inv

/-- `list_del` and `list_add` to `gc_zero_ref_count_list`. -/
def toZero (rt : JSRuntime) (p : Ptr) : JSRuntime :=
  { rt.unlink p with gcZeroRefCountList := p :: (rt.unlink p).gcZeroRefCountList }

theorem toZero_linked (hg : p ∈ rt.gcObjList) (ht : rt.tmpObjList = []) (hnd : rt.linked.Nodup) :
    (toZero rt p).linked.Perm rt.linked := by
  have hpz : p ∉ rt.gcZeroRefCountList := fun hc =>
    (List.nodup_append.1 hnd).2.2 p (List.mem_append_left _ hg) p hc rfl
  simp only [JSRuntime.linked, toZero, JSRuntime.unlink, ht, List.append_nil, List.erase_nil,
    List.erase_of_not_mem hpz]
  exact List.perm_middle.trans ((List.perm_cons_erase hg).symm.append_right _)

theorem Placed.unhold (h : Placed body roots R H rt) (hnd : H.Nodup) (hp : p ∈ H) {R' : List Ptr}
    (hR : ∀ q, q ≠ p → due body R' H q = due body R H q)
    (hz : due body R' H p = 0 ∨ rt.gcPhase = .removeCycles ∧ isValueAt body p)
    (hg : rt.gcPhase = .removeCycles → p ∉ rt.gcObjList) :
    Placed body roots (children (body p) ++ R') (H.erase p) rt := by
  have hd : ∀ q, q ∈ H.erase p → due body (children (body p) ++ R') (H.erase p) q = due body R H q := by
    intro q hq
    rw [due_erase hp, hR q (hnd.mem_erase_iff.1 hq).1]
  refine ⟨fun q hq hn => ?_, fun q hq hv => ?_, fun hph => ⟨(h.falling hph).1, fun q hq => ?_⟩, h.quiet,
    fun hc => ⟨fun q hq => ?_, fun q hq hqH => ?_⟩⟩
  · rw [due_erase hp]
    rcases eq_or_ne q p with rfl | hne
    · exact hz
    · rw [hR q hne]
      exact h.idle q hq fun hc => hn ((List.mem_erase_of_ne hne).2 hc)
  · rw [hd q hq]
    exact h.parts q (List.mem_of_mem_erase hq) hv
  · rw [hd q hq]
    exact (h.falling hph).2 q (List.mem_of_mem_erase hq)
  · have hne : q ≠ p := fun he => hg hc (he ▸ hq)
    exact ⟨(List.mem_erase_of_ne hne).2 ((h.cycling hc).1 q hq).1, ((h.cycling hc).1 q hq).2⟩
  · exact (h.cycling hc).2 q hq (List.mem_of_mem_erase hqH)

namespace Inv

/-- A value whose last reference is pending is in `gc_obj_list`. -/
theorem mem_gcObjList (h : Inv body roots (p :: P) H rt) (hp : rt.gcPhase ≠ .removeCycles) :
    p ∈ rt.gcObjList := by
  rw [(h.falling hp).2 p (h.mem_of_pending (.inl hp)), List.cons_append, due_cons_self]
  omega

/-- The count of a value falls to zero. -/
theorem moveZero (h : Inv body roots (p :: P) H rt) (ho : rt.objs p = some o)
    (hv : isValueAt body p = true) (hp : rt.gcPhase ≠ .removeCycles)
    (h0 : due body (P ++ roots) H p = 0) :
    Inv body roots P H
      { toZero (rt.store p { o with refCount := o.refCount - 1 }) p with gcPhase := .decref } := by
  have ⟨htmp, hfall⟩ := h.falling hp
  have hl : (toZero (rt.store p { o with refCount := o.refCount - 1 }) p).linked.Perm rt.linked :=
    toZero_linked (h.mem_gcObjList hp) htmp h.nodup
  refine ⟨(h.toCounted.dec ho).of_lists rfl hl fun q hq => List.mem_of_mem_erase hq,
    fun q hq hn => ?_, fun q hq hv' => ?_, fun _ => ⟨?_, fun q hq => ?_⟩, fun hc => ?_, fun hc => ?_⟩
  · have := due_le_cons body p (P ++ roots) H q
    rcases h.idle q (hl.mem_iff.1 hq) hn with hi | ⟨hc, -⟩
    · rw [List.cons_append] at hi
      exact .inl (by omega)
    · exact absurd hc hp
  · have hne : q ≠ p := by
      rintro rfl
      rw [hv] at hv'
      cases hv'
    have := h.parts q hq hv'
    rwa [List.cons_append, due_cons_of_ne hne] at this
  · show rt.tmpObjList.erase p = []
    rw [htmp, List.erase_nil]
  · show q ∈ rt.gcObjList.erase p ↔ _
    rw [(List.nodup_append.1 (List.nodup_append.1 h.nodup).1).1.mem_erase_iff]
    have hf := hfall q hq
    rcases eq_or_ne q p with rfl | hne
    · simp [h0]
    · rw [List.cons_append, due_cons_of_ne hne] at hf
      simp [hne, hf]
  · cases hc
  · cases hc

/-- A holder starts to be destroyed. -/
theorem unhold (h : Inv body roots P H rt) (hp : p ∈ H)
    (hz : due body (P ++ roots) H p = 0 ∨ rt.gcPhase = .removeCycles ∧ isValueAt body p)
    (hg : rt.gcPhase = .removeCycles → p ∉ rt.gcObjList) :
    Inv body roots (children (body p) ++ P) (H.erase p) rt := by
  refine ⟨?_, ?_⟩ <;> rw [List.append_assoc]
  · exact h.toCounted.unhold hp
  · exact h.toPlaced.unhold h.holders hp (fun _ _ => rfl) hz hg

/-- The count of a part falls to zero. -/
theorem decUnhold (h : Inv body roots (p :: P) H rt) (ho : rt.objs p = some o) (hp : p ∈ H)
    (hz : due body (P ++ roots) H p = 0) (hg : rt.gcPhase = .removeCycles → p ∉ rt.gcObjList) :
    Inv body roots (children (body p) ++ P) (H.erase p)
      (rt.store p { o with refCount := o.refCount - 1 }) := by
  refine ⟨?_, ?_⟩ <;> rw [List.append_assoc]
  · exact (h.toCounted.dec ho).unhold hp
  · have hP : Placed body roots (p :: P ++ roots) H
        (rt.store p { o with refCount := o.refCount - 1 }) :=
      ⟨h.idle, h.parts, h.falling, h.quiet, h.cycling⟩
    exact hP.unhold h.holders hp (fun q hq => (due_cons_of_ne hq _ H).symm) (.inl hz) hg

theorem setBody (h : Inv body roots P H rt) (hp : p ∉ H) (ho : rt.objs p = some o) {b : Body}
    (hb : b.type = o.body.type) : Inv body roots P H (rt.store p { o with body := b }) :=
  ⟨h.toCounted.setBody hp ho hb, h.idle, h.parts, h.falling, h.quiet, h.cycling⟩

theorem drop (h : Inv body roots P H rt) (hp : p ∉ H) (h0 : due body (P ++ roots) H p = 0) :
    Inv body roots P H ((rt.unlink p).drop p) := by
  refine ⟨h.toCounted.drop hp h0, fun q hq hn => ?_, h.parts, fun hph => ⟨?_, fun q hq => ?_⟩,
    fun hph => ?_, fun hc => ?_⟩
  · exact h.idle q ((unlink_sublist rt p).subset hq) hn
  · show rt.tmpObjList.erase p = []
    rw [(h.falling hph).1, List.erase_nil]
  · show q ∈ rt.gcObjList.erase p ↔ _
    rw [List.mem_erase_of_ne (ne_of_mem_of_not_mem hq hp)]
    exact (h.falling hph).2 q hq
  · show rt.gcZeroRefCountList.erase p = []
    rw [h.quiet hph, List.erase_nil]
  · have hg : p ∉ rt.gcObjList := fun hg => hp ((h.cycling hc).1 p hg).1
    have he : ((rt.unlink p).drop p).gcObjList = rt.gcObjList := List.erase_of_not_mem hg
    rw [he]
    exact ⟨(h.cycling hc).1, fun q hq => (h.cycling hc).2 q (List.mem_of_mem_erase hq)⟩

/-- In `removeCycles`, what `gc_obj_list` holds is owed something. -/
theorem not_mem_gcObjList {P' : List Ptr} (h : Inv body roots P' H rt) (h0 : due body (P ++ roots) H p = 0)
    (hc : rt.gcPhase = .removeCycles) : p ∉ rt.gcObjList := by
  intro hp
  rw [due, owed_eq_zero_iff] at h0
  rcases owed_pos_iff.1 ((h.cycling hc).1 p hp).2 with hr | ⟨q, hq, hk⟩
  · exact h0.1 (List.mem_append_right P hr)
  · exact h0.2 q ((h.cycling hc).1 q hq).1 hk

end Inv

/-! ## Programs that release references -/

/-- What a release may count on: its phase, and how many holders there are. -/
structure Scope where
  holds : GcPhase → Nat → Prop
  anti {ph : GcPhase} {m n : Nat} : m ≤ n → holds ph n → holds ph m

/-- While objects are destroyed. -/
def nested : Scope := ⟨fun ph _ => ph ≠ .none, fun _ h => h⟩

/-- From outside, with at most `n` objects. -/
def outer (n : Nat) : Scope := ⟨fun ph m => ph = .none ∧ m ≤ n, fun hm h => ⟨h.1, Nat.le_trans hm h.2⟩⟩

variable {C : Scope} {x : M Unit} {as bs cs : List Ptr} {free : Ptr → M Unit}

/-- The program releases the references `cs`, and does not stop. -/
def Frees (body : Ptr → Body) (roots : List Ptr) (C : Scope) (x : M Unit) (cs : List Ptr) : Prop :=
  ∀ P H rt, Inv body roots (cs ++ P) H rt → C.holds rt.gcPhase H.length →
    WP x rt (fun _ rt' => ∃ H', Inv body roots P H' rt' ∧ Frame rt H rt' H') fun _ _ => False

namespace Frees

/-- A release, and then the rest of the program. -/
theorem bind {α : Type} {k : Unit → M α} {Q : α → JSRuntime → Prop} (hx : Frees body roots C x cs)
    (h : Inv body roots (cs ++ P) H rt) (hC : C.holds rt.gcPhase H.length)
    (hk : ∀ H' rt', Inv body roots P H' rt' → Frame rt H rt' H' → C.holds rt'.gcPhase H'.length →
      WP (k ⟨⟩) rt' Q fun _ _ => False) :
    WP (x >>= k) rt Q fun _ _ => False := by
  refine WP.seq (hx P H rt h hC) (fun _ _ h => h) ?_
  rintro - rt' ⟨H', hi, hf⟩
  refine hk H' rt' hi hf ?_
  rw [hf.phase]
  exact C.anti hf.holders.length_le hC

theorem forM (h : ∀ c ∈ cs, Frees body roots C (free c) [c]) : Frees body roots C (cs.forM free) cs := by
  induction cs with
  | nil => exact fun P H rt hi _ => ⟨H, hi, .refl rt H⟩
  | cons c cs ih =>
    intro P H rt hi hC
    refine (h c (by simp)).bind (P := cs ++ P) hi hC fun H₁ rt₁ hi₁ hf₁ hC₁ => ?_
    refine (ih (fun c hc => h c (by simp [hc])) P H₁ rt₁ hi₁ hC₁).mono ?_ fun _ _ h => h
    rintro - rt₂ ⟨H₂, hi₂, hf₂⟩
    exact ⟨H₂, hi₂, hf₁.trans hf₂⟩

end Frees

/-! ## Parts -/

/-- An object stopped holding, and has been freed since. -/
theorem Frame.destroyed (hf : Frame rt (H.erase p) rt' H') (hp : p ∈ H) (hnd : H.Nodup)
    (hnd' : rt'.linked.Nodup) (hg : rt.gcPhase = .removeCycles → p ∉ rt.gcObjList) :
    Frame rt H ((rt'.unlink p).drop p) H' where
  phase := hf.phase
  holders := hf.holders.trans List.erase_sublist
  stays q hq hn := by
    rw [drop_linked, mem_unlink hnd']
    exact ⟨fun he => hn (he ▸ hp), hf.stays q hq fun hc => hn (List.mem_of_mem_erase hc)⟩
  new q hq := by
    rw [drop_linked, mem_unlink hnd'] at hq
    refine (hf.new q hq.2).imp_right fun h => ⟨h.1, fun hc => h.2 ?_⟩
    rw [hnd.mem_erase_iff]
    exact ⟨hq.1, hc⟩
  zero q hq := by
    have hz : rt'.gcZeroRefCountList.Nodup := (List.nodup_append.1 hnd').2.1
    obtain ⟨hne, hq⟩ := hz.mem_erase_iff.1 hq
    refine (hf.zero q hq).imp_right fun h => ⟨h.1, fun hc => h.2 ?_⟩
    rw [hnd.mem_erase_iff]
    exact ⟨hne, hc⟩
  lists hc := by
    have ⟨hg', ht⟩ := hf.lists hc
    refine ⟨?_, List.erase_sublist.trans ht⟩
    rw [← hg']
    refine List.erase_of_not_mem ?_
    rw [hg']
    exact hg hc

/-- What a release finds at a part of an object. -/
theorem release_part (h : Inv body roots (p :: P) H rt) (hp : isValueAt body p = false)
    (ho : rt.objs p = some o) :
    (0 < o.refCount - 1 → Inv body roots P H (rt.store p { o with refCount := o.refCount - 1 })) ∧
      (o.refCount - 1 = 0 → p ∈ H ∧ o.body = body p ∧ (rt.gcPhase = .removeCycles → p ∉ rt.gcObjList) ∧
        Inv body roots (children (body p) ++ P) (H.erase p)
          (rt.store p { o with refCount := o.refCount - 1 })) := by
  have hd : o.refCount - 1 = due body (P ++ roots) H p := by
    obtain ⟨o', ho', -, hd⟩ := h.exists_pending
    cases ho.symm.trans ho'
    exact hd
  have hpH := h.mem_of_pending (.inr hp)
  refine ⟨fun hpos => h.dec ho (.inl (by omega)), fun h0 => ⟨hpH, h.bodies p hpH o ho, ?_⟩⟩
  have h0 : due body (P ++ roots) H p = 0 := by omega
  exact ⟨h.not_mem_gcObjList h0, h.decUnhold ho hpH h0 (h.not_mem_gcObjList h0)⟩

/-- The end of the destruction of a part. -/
theorem wp_destroyed (hp : isValueAt body p = false) (hpH : p ∈ H) (hl : p ∈ rt.linked)
    (hnd : H.Nodup) (hg : rt.gcPhase = .removeCycles → p ∉ rt.gcObjList)
    (h : Inv body roots P H' rt') (hf : Frame rt (H.erase p) rt' H') :
    WP (do removeGcObject p; jsFreeRt p) rt'
      (fun _ rt'' => ∃ H'', Inv body roots P H'' rt'' ∧ Frame rt H rt'' H'') fun _ _ => False := by
  have hnp : p ∉ H.erase p := fun hc => (hnd.mem_erase_iff.1 hc).1 rfl
  have hnp' : p ∉ H' := fun hc => hnp (hf.holders.subset hc)
  have hl' : p ∈ rt'.linked := hf.stays p hl hnp
  have h0 : due body (P ++ roots) H' p = 0 := by
    refine (h.idle p hl' hnp').resolve_right ?_
    rintro ⟨-, hv⟩
    rw [hv] at hp
    cases hp
  obtain ⟨o, ho⟩ := (h.linked_iff p).1 hl'
  refine .bind (wp_listDel hl' (wp_jsFreeRt ho ?_))
  exact ⟨H', h.drop hnp' h0, hf.destroyed hpH hnd h.nodup hg⟩

/-- How long a release can go on before it comes to values. -/
def depth : GcObjType → Nat
  | .jsObject | .functionBytecode => 1
  | .shape | .varRef | .asyncFunction => 2
  | .jsContext => 3

theorem depth_of_isValue {t : GcObjType} (h : t.isValue = true) : depth t = 1 := by
  cases t <;> first | rfl | cases h

/-- `free` releases references of a smaller depth than `d`. -/
def FreesBelow (body : Ptr → Body) (roots : List Ptr) (C : Scope) (d : Nat) (free : Ptr → M Unit) : Prop :=
  ∀ c, depth (body c).type < d → Frees body roots C (free c) [c]

theorem FreesBelow.mono {d e : Nat} (h : FreesBelow body roots C e free) (hd : d ≤ e) :
    FreesBelow body roots C d free := fun c hc => h c (by omega)

variable (hT : ∀ p, Regular (fun q => (body q).type) (body p))

include hT

theorem frees_jsFreeShape (hfree : FreesBelow body roots C 2 free) (hp : (body p).type = .shape) :
    Frees body roots C (jsFreeShape free p) [p] := by
  intro P H rt (h : Inv body roots (p :: P) H rt) hC
  have hv : isValueAt body p = false := by rw [isValueAt, hp]; rfl
  obtain ⟨proto, hb⟩ : ∃ proto, body p = .shape proto := by
    cases hb : body p <;> rw [hb] at hp <;> cases hp
    exact ⟨_, rfl⟩
  obtain ⟨o, ho, hl, hd⟩ := h.exists_pending
  have ⟨hpos, hzero⟩ := release_part h hv ho
  have hTp := hT p
  rw [hb] at hzero hTp
  refine .bind (wp_decRefCount ho (.ite (fun hle => ?_) fun hlt => ?_))
  · have h0 : o.refCount - 1 = 0 := by omega
    rcases o with ⟨n, m, b⟩
    obtain ⟨hpH, rfl, hg, hi⟩ := hzero h0
    refine wp_fetch_bind (store_self ..) (wp_fetch_bind (store_self ..) ?_)
    refine .bind (wp_assert (decide_eq_true h0) ?_)
    refine (Frees.forM fun c hc => hfree c ?_).bind hi (C.anti List.length_erase_le hC) ?_
    · rw [depth_of_isValue (hTp.typed c hc)]
      omega
    · intro H' rt' hi' hf _
      exact wp_destroyed hv hpH hl h.holders hg hi' ((Frame.store ..).trans hf)
  · exact .of_pure ⟨H, hpos (by omega), .store ..⟩

theorem frees_freeVarRef (hfree : FreesBelow body roots C 2 free) (hp : (body p).type = .varRef) :
    Frees body roots C (freeVarRef free p) [p] := by
  intro P H rt (h : Inv body roots (p :: P) H rt) hC
  have hv : isValueAt body p = false := by rw [isValueAt, hp]; rfl
  obtain ⟨pvalue, hb⟩ : ∃ pvalue, body p = .varRef pvalue := by
    cases hb : body p with
    | varRef pvalue => exact ⟨pvalue, rfl⟩
    | openVarRef =>
      have hs := (hT p).strong
      rw [hb] at hs
      exact hs.elim
    | _ =>
      rw [hb] at hp
      cases hp
  obtain ⟨o, ho, hl, hd⟩ := h.exists_pending
  have ⟨hpos, hzero⟩ := release_part h hv ho
  have hTp := hT p
  rw [hb] at hzero hTp
  refine wp_fetch_bind ho (.bind (wp_assert (decide_eq_true (by omega)) ?_))
  refine .bind (wp_decRefCount ho (.ite (fun h0 => ?_) fun hne => ?_))
  · rcases o with ⟨n, m, b⟩
    obtain ⟨hpH, rfl, hg, hi⟩ := hzero h0
    refine wp_fetch_bind (store_self ..) ?_
    refine (Frees.forM fun c hc => hfree c ?_).bind hi (C.anti List.length_erase_le hC) ?_
    · rw [depth_of_isValue (hTp.typed c hc)]
      omega
    · intro H' rt' hi' hf _
      exact wp_destroyed hv hpH hl h.holders hg hi' ((Frame.store ..).trans hf)
  · exact .of_pure ⟨H, hpos (by omega), .store ..⟩

omit hT in
/-- A frame without open variables. -/
theorem frees_asyncFuncFree {funcState : Option FuncState} (hs : Closed funcState)
    (h : ∀ c ∈ frameValues funcState, Frees body roots C (free c) [c]) :
    Frees body roots C (asyncFuncFree free funcState) (frameValues funcState) := by
  cases funcState with
  | none => exact fun P H rt hi _ => .of_pure ⟨H, hi, .refl rt H⟩
  | some s =>
    intro P H rt hi hC
    have hperm : (s.values ++ s.stack ++ P).Perm (s.stack ++ (s.values ++ P)) := by
      rw [List.append_assoc]
      exact List.perm_append_comm_assoc ..
    have hc : closeVarRefs s.varRefList = pure ⟨⟩ := by
      rw [hs s rfl]
      rfl
    rw [asyncFuncFree, hc, pure_bind]
    refine (Frees.forM fun c hc => h c (List.mem_append_right _ hc)).bind (hi.of_perm hperm) hC ?_
    intro H₁ rt₁ hi₁ hf₁ hC₁
    refine (Frees.forM (fun c hc => h c (List.mem_append_left _ hc)) P H₁ rt₁ hi₁ hC₁).mono ?_ fun _ _ h => h
    rintro - rt₂ ⟨H₂, hi₂, hf₂⟩
    exact ⟨H₂, hi₂, hf₁.trans hf₂⟩

theorem frees_jsAsyncFunctionFree (hfree : FreesBelow body roots C 2 free)
    (hp : (body p).type = .asyncFunction) : Frees body roots C (jsAsyncFunctionFree free p) [p] := by
  intro P H rt (h : Inv body roots (p :: P) H rt) hC
  have hv : isValueAt body p = false := by rw [isValueAt, hp]; rfl
  obtain ⟨funcState, resolvingFuncs, hb⟩ : ∃ s r, body p = .asyncFunction s r := by
    cases hb : body p <;> rw [hb] at hp <;> cases hp
    exact ⟨_, _, rfl⟩
  obtain ⟨o, ho, hl, hd⟩ := h.exists_pending
  have ⟨hpos, hzero⟩ := release_part h hv ho
  have hTp := hT p
  rw [hb] at hzero hTp
  refine .bind (wp_decRefCount ho (.ite (fun h0 => ?_) fun hne => ?_))
  · rcases o with ⟨n, m, b⟩
    obtain ⟨hpH, rfl, hg, hi⟩ := hzero h0
    have hvals : ∀ c ∈ frameValues funcState ++ resolvingFuncs, depth (body c).type < 2 := by
      intro c hc
      rw [depth_of_isValue (hTp.typed c hc)]
      omega
    rw [children, List.append_assoc] at hi
    refine wp_fetch_bind (store_self ..) ?_
    refine (frees_asyncFuncFree hTp.strong fun c hc => hfree c (hvals c ?_)).bind hi
      (C.anti List.length_erase_le hC) ?_
    · exact List.mem_append_left _ hc
    intro H₁ rt₁ hi₁ hf₁ hC₁
    refine (Frees.forM fun c hc => hfree c (hvals c ?_)).bind hi₁ hC₁ fun H₂ rt₂ hi₂ hf₂ _ => ?_
    · exact List.mem_append_right _ hc
    exact wp_destroyed hv hpH hl h.holders hg hi₂ ((Frame.store ..).trans (hf₁.trans hf₂))
  · exact .of_pure ⟨H, hpos (by omega), .store ..⟩

theorem frees_jsFreeContext (hfree : FreesBelow body roots C 3 free) (hp : (body p).type = .jsContext) :
    Frees body roots C (jsFreeContext free p) [p] := by
  intro P H rt (h : Inv body roots (p :: P) H rt) hC
  have hv : isValueAt body p = false := by rw [isValueAt, hp]; rfl
  obtain ⟨loadedModules, values, arrayShape, hb⟩ : ∃ m v s, body p = .jsContext m v s := by
    cases hb : body p <;> rw [hb] at hp <;> cases hp
    exact ⟨_, _, _, rfl⟩
  obtain ⟨o, ho, hl, hd⟩ := h.exists_pending
  have ⟨hpos, hzero⟩ := release_part h hv ho
  have hTp := hT p
  rw [hb] at hzero hTp
  obtain ⟨hTm, hTv, hTs⟩ := hTp.typed
  refine .bind (wp_decRefCount ho (.ite (fun h0 => ?_) fun hle => ?_))
  · exact .of_pure ⟨H, hpos h0, .store ..⟩
  · have h0 : o.refCount - 1 = 0 := by omega
    rcases o with ⟨n, m, b⟩
    obtain ⟨hpH, rfl, hg, hi⟩ := hzero h0
    rw [children, List.append_assoc, List.append_assoc] at hi
    refine wp_fetch_bind (store_self ..) (.bind (wp_assert (decide_eq_true h0) ?_))
    refine wp_fetch_bind (store_self ..) ?_
    refine (Frees.forM fun c hc => hfree c ?_).bind hi (C.anti List.length_erase_le hC) ?_
    · rcases hTm c hc with hc | hc
      · rw [depth_of_isValue hc]
        omega
      · exact lt_of_eq_of_lt (congrArg depth hc) (by decide)
    intro H₁ rt₁ hi₁ hf₁ hC₁
    refine (Frees.forM fun c hc => hfree c ?_).bind hi₁ hC₁ fun H₂ rt₂ hi₂ hf₂ hC₂ => ?_
    · rw [depth_of_isValue (hTv c hc)]
      omega
    refine (Frees.forM fun c hc => hfree c ?_).bind hi₂ hC₂ fun H₃ rt₃ hi₃ hf₃ _ => ?_
    · exact lt_of_eq_of_lt (congrArg depth (hTs c hc)) (by decide)
    exact wp_destroyed hv hpH hl h.holders hg hi₃ ((Frame.store ..).trans (hf₁.trans (hf₂.trans hf₃)))

omit hT

/-! ## Values, while objects are destroyed -/

/-- A value waits in `gc_zero_ref_count_list`. -/
theorem Frame.moveZero (h : Inv body roots (p :: P) H rt) (hp : rt.gcPhase ≠ .removeCycles)
    (o : GcObject) :
    Frame { rt with gcPhase := .decref } H { toZero (rt.store p o) p with gcPhase := .decref } H := by
  have hl : (toZero (rt.store p o) p).linked.Perm rt.linked :=
    toZero_linked (h.mem_gcObjList hp) (h.falling hp).1 h.nodup
  refine ⟨rfl, List.Sublist.refl H, fun q hq _ => hl.mem_iff.2 hq, fun q hq => ?_, fun q hq => ?_, ?_⟩
  · exact (em (q ∈ H)).imp_right fun hn => ⟨hl.mem_iff.1 hq, hn⟩
  · rcases List.mem_cons.1 hq with rfl | hq
    · exact .inl (h.mem_of_pending (.inl hp))
    · exact (em (q ∈ H)).imp_right fun hn => ⟨List.mem_of_mem_erase hq, hn⟩
  · rintro ⟨⟩

theorem frees_jsFreeValueRT (fuel : Nat) (hp : isValueAt body p = true) :
    Frees body roots nested (jsFreeValueRT free fuel p) [p] := by
  intro P H rt (h : Inv body roots (p :: P) H rt) hC
  obtain ⟨o, ho, hl, hd⟩ := h.exists_pending
  refine .bind (wp_decRefCount ho (.ite (fun hle => ?_) fun hlt => ?_))
  · have h0 : due body (P ++ roots) H p = 0 := by omega
    refine .bind (.of_get (.ite (fun hph => ?_) fun hph => ?_))
    · have hdec : rt.gcPhase = .decref := by
        cases hp : rt.gcPhase
        · exact absurd hp hC
        · rfl
        · exact absurd hp hph
      have hi := h.moveZero ho hp hph h0
      have hf := Frame.moveZero h hph { o with refCount := o.refCount - 1 }
      rw [← hdec] at hi hf
      refine .bind (wp_listDel hl (.bind (.of_modify (.bind (.of_get (.ite (fun hn => ?_) fun _ => ?_))))))
      · exact absurd hn hC
      · exact .of_pure ⟨H, hi, hf⟩
    · have hph : rt.gcPhase = .removeCycles := not_not.1 hph
      exact .of_pure ⟨H, h.dec ho (.inr ⟨hph, hp⟩), .store ..⟩
  · exact .of_pure ⟨H, h.dec ho (.inl (by omega)), .store ..⟩

/-! ## Destroying values -/

/-- The header of a destroyed object that is still referred to. -/
def toZombie (rt : JSRuntime) (p : Ptr) : JSRuntime :=
  { rt.unlink p with gcZeroRefCountList := (rt.unlink p).gcZeroRefCountList ++ [p] }

theorem toZombie_linked (hl : p ∈ rt.linked) (hnd : rt.linked.Nodup) :
    (toZombie rt p).linked.Perm rt.linked := by
  have h : (toZombie rt p).linked = (rt.unlink p).linked ++ [p] := by
    simp only [JSRuntime.linked, toZombie, List.append_assoc]
  rw [h, List.perm_ext_iff_of_nodup _ hnd]
  · intro q
    rw [List.mem_append, List.mem_singleton, mem_unlink hnd]
    rcases eq_or_ne q p with rfl | hne
    · simp [hl]
    · simp [hne]
  · refine List.nodup_append.2 ⟨hnd.sublist (unlink_sublist rt p), List.nodup_singleton p, ?_⟩
    intro a ha b hb
    rw [List.mem_singleton] at hb
    exact hb ▸ ((mem_unlink hnd).1 ha).1

theorem Inv.toZombie (h : Inv body roots P H rt) (hp : p ∉ H) (hl : p ∈ rt.linked)
    (hc : rt.gcPhase = .removeCycles) : Inv body roots P H (toZombie rt p) := by
  have hperm := toZombie_linked hl h.nodup
  have hg : (Gc.toZombie rt p).gcObjList = rt.gcObjList :=
    List.erase_of_not_mem fun hg => hp ((h.cycling hc).1 p hg).1
  refine ⟨h.toCounted.of_lists rfl hperm fun q hq => hg ▸ hq, fun q hq hn => ?_, h.parts,
    fun hph => absurd hc hph, fun hph => ?_, fun _ => ?_⟩
  · exact h.idle q (hperm.mem_iff.1 hq) hn
  · exact absurd (hc.symm.trans hph) (by decide)
  · rw [hg]
    refine ⟨(h.cycling hc).1, fun q hq hqH => ?_⟩
    rcases List.mem_append.1 hq with hq | hq
    · exact (h.cycling hc).2 q (List.mem_of_mem_erase hq) hqH
    · rw [List.mem_singleton] at hq
      exact absurd (hq ▸ hqH) hp

theorem wp_freeHeader (h : Inv body roots P H rt) (hp : p ∉ H) (hl : p ∈ rt.linked) :
    WP (freeHeader p) rt (fun _ rt' => Inv body roots P H rt' ∧
      (rt' = (rt.unlink p).drop p ∨ rt.gcPhase = .removeCycles ∧ rt' = toZombie rt p))
      fun _ _ => False := by
  obtain ⟨o, ho⟩ := (h.linked_iff p).1 hl
  refine .bind (wp_listDel hl (.bind (.of_get (wp_fetch_bind ho (.ite (fun hc => ?_) fun hc => ?_)))))
  · exact .of_modify ⟨h.toZombie hp hl hc.1, .inr ⟨hc.1, rfl⟩⟩
  · have h0 : due body (P ++ roots) H p = 0 := by
      rcases h.idle p hl hp with h0 | ⟨hph, -⟩
      · exact h0
      · have hn : o.refCount = 0 := not_not.1 fun hn => hc ⟨hph, hn⟩
        rw [h.counts p o ho] at hn
        omega
    exact wp_jsFreeRt ho ⟨h.drop hp h0, .inl rfl⟩

/-- What the destruction of the value `p` leaves. -/
structure Destroyed (p : Ptr) (rt : JSRuntime) (H : List Ptr) (rt' : JSRuntime) (H' : List Ptr) : Prop where
  phase : rt'.gcPhase = rt.gcPhase
  holders : H'.Sublist (H.erase p)
  stays : ∀ q ∈ rt.linked, q ∉ H → q ∈ rt'.linked
  new : ∀ q ∈ rt'.linked, q ∈ H' ∨ q ∈ rt.linked ∧ q ∉ H ∨ rt.gcPhase = .removeCycles ∧ q = p
  zero : ∀ q ∈ rt'.gcZeroRefCountList, q ∈ H' ∨ q ∈ rt.gcZeroRefCountList ∧ q ∉ H ∨
    rt.gcPhase = .removeCycles ∧ q = p
  lists : rt.gcPhase = .removeCycles →
    rt'.gcObjList = rt.gcObjList ∧ rt'.tmpObjList.Sublist (rt.tmpObjList.erase p)

theorem Frame.destroyedValue {rt'' : JSRuntime} (hf : Frame rt (H.erase p) rt' H') (hp : p ∈ H)
    (hnd' : rt'.linked.Nodup) (hl : p ∈ rt'.linked)
    (hg : rt.gcPhase = .removeCycles → p ∉ rt.gcObjList)
    (h : rt'' = (rt'.unlink p).drop p ∨ rt'.gcPhase = .removeCycles ∧ rt'' = toZombie rt' p) :
    Destroyed p rt H rt'' H' := by
  have ⟨hph, hgc, htmp⟩ : rt''.gcPhase = rt'.gcPhase ∧ rt''.gcObjList = rt'.gcObjList.erase p ∧
      rt''.tmpObjList = rt'.tmpObjList.erase p := by
    rcases h with rfl | ⟨-, rfl⟩ <;> exact ⟨rfl, rfl, rfl⟩
  have hmem : ∀ q ∈ rt''.linked, q ∈ rt'.linked ∧ (q = p → rt.gcPhase = .removeCycles) := by
    rcases h with rfl | ⟨hc, rfl⟩ <;> intro q hq
    · rw [drop_linked, mem_unlink hnd'] at hq
      exact ⟨hq.2, fun he => absurd he hq.1⟩
    · exact ⟨(toZombie_linked hl hnd').mem_iff.1 hq, fun _ => hf.phase ▸ hc⟩
  have hzero : ∀ q ∈ rt''.gcZeroRefCountList, q ∈ rt'.gcZeroRefCountList ∨ q = p := by
    rcases h with rfl | ⟨hc, rfl⟩ <;> intro q hq
    · exact .inl (List.mem_of_mem_erase hq)
    · rw [← List.mem_singleton]
      exact (List.mem_append.1 hq).imp_left List.mem_of_mem_erase
  have hH : ∀ q, q ≠ p → q ∉ H.erase p → q ∉ H := fun q hne hn hc =>
    hn ((List.mem_erase_of_ne hne).2 hc)
  refine ⟨hph.trans hf.phase, hf.holders, fun q hq hn => ?_, fun q hq => ?_, fun q hq => ?_, fun hc => ?_⟩
  · have hne : q ≠ p := fun he => hn (he ▸ hp)
    have hq' := hf.stays q hq fun hc => hn (List.mem_of_mem_erase hc)
    rcases h with rfl | ⟨hc, rfl⟩
    · rw [drop_linked, mem_unlink hnd']
      exact ⟨hne, hq'⟩
    · exact (toZombie_linked hl hnd').mem_iff.2 hq'
  · rcases eq_or_ne q p with rfl | hne
    · exact .inr (.inr ⟨(hmem q hq).2 rfl, rfl⟩)
    · exact (hf.new q (hmem q hq).1).imp_right fun h => .inl ⟨h.1, hH q hne h.2⟩
  · rcases eq_or_ne q p with rfl | hne
    · have hql : q ∈ rt''.linked := mem_linked.2 (.inr (.inr hq))
      exact .inr (.inr ⟨(hmem q hql).2 rfl, rfl⟩)
    · exact (hf.zero q ((hzero q hq).resolve_right hne)).imp_right fun h => .inl ⟨h.1, hH q hne h.2⟩
  · have ⟨hg', ht⟩ := hf.lists hc
    rw [hgc, htmp, hg']
    exact ⟨List.erase_of_not_mem (hg hc), ht.erase p⟩

/-- What may be destroyed: a value without references, or one found to be in a
cycle. -/
structure Dead (body : Ptr → Body) (R H : List Ptr) (rt : JSRuntime) (p : Ptr) : Prop where
  mem : p ∈ H
  value : isValueAt body p = true
  unreferenced : due body R H p = 0 ∨ rt.gcPhase = .removeCycles
  garbage : rt.gcPhase = .removeCycles → p ∉ rt.gcObjList

theorem wp_fetchObject {obj : JSObject} {Q : JSObject → JSRuntime → Prop} {E : Stop → JSRuntime → Prop}
    (ho : rt.objs p = some o) (hb : o.body = .jsObject obj) (hQ : Q obj rt) : WP (fetchObject p) rt Q E := by
  refine wp_fetch_bind ho ?_
  rw [hb]
  exact .of_pure hQ

/-- An object that no weak map knows releases what its class marks. -/
theorem wp_finalizer {obj : JSObject} {n : Int} {m : Bool} (hfree : ∀ c, Frees body roots C (free c) [c])
    (ho : rt.objs p = some ⟨n, m, .jsObject obj⟩) (hs : Closed obj.funcState) (hr : obj.records = [])
    (h : Inv body roots (obj.data ++ (frameValues obj.funcState ++ P)) H rt) (hC : C.holds rt.gcPhase H.length) :
    WP (finalizer free p) rt (fun _ rt' => ∃ H', Inv body roots P H' rt' ∧ Frame rt H rt' H')
      fun _ _ => False := by
  refine .bind (wp_fetchObject ho rfl ?_)
  rw [hr]
  refine (Frees.forM fun c _ => hfree c).bind h hC fun H₁ rt₁ hi₁ hf₁ hC₁ => ?_
  refine (frees_asyncFuncFree hs fun c _ => hfree c).bind hi₁ hC₁ fun H₂ rt₂ hi₂ hf₂ _ => ?_
  exact .of_pure ⟨H₂, hi₂, hf₁.trans hf₂⟩

include hT

theorem wp_freeGcObject (hfree : FreesBelow body roots C 4 free) (h : Inv body roots P H rt)
    (hC : C.holds rt.gcPhase H.length) (hp : Dead body (P ++ roots) H rt p) :
    WP (freeGcObject free p) rt
      (fun _ rt' => ∃ H', Inv body roots P H' rt' ∧ Destroyed p rt H rt' H') fun _ _ => False := by
  have hl := h.held p hp.mem
  have hnp : p ∉ H.erase p := fun hc => (h.holders.mem_erase_iff.1 hc).1 rfl
  have hi := h.unhold hp.mem (hp.unreferenced.imp_right fun hc => ⟨hc, hp.value⟩) hp.garbage
  have hC' : C.holds rt.gcPhase (H.erase p).length := C.anti List.length_erase_le hC
  have hany : ∀ c, depth (body c).type < 4 := fun c => by cases (body c).type <;> decide
  obtain ⟨o, ho⟩ := (h.linked_iff p).1 hl
  have hend : ∀ H₁ rt₁, Inv body roots P H₁ rt₁ → Frame rt (H.erase p) rt₁ H₁ →
      WP (freeHeader p) rt₁ (fun _ rt' => ∃ H', Inv body roots P H' rt' ∧ Destroyed p rt H rt' H')
        fun _ _ => False := by
    intro H₁ rt₁ hi₁ hf₁
    have hl₁ := hf₁.stays p hl hnp
    refine (wp_freeHeader hi₁ (fun hc => hnp (hf₁.holders.subset hc)) hl₁).mono ?_ fun _ _ h => h
    rintro - rt₂ ⟨hi₂, hc⟩
    exact ⟨H₁, hi₂, hf₁.destroyedValue hp.mem hi₁.nodup hl₁ hp.garbage hc⟩
  have hTp := hT p
  have hv := hp.value
  rw [isValueAt] at hv
  rw [← h.bodies p hp.mem o ho] at hi hTp hv
  rcases o with ⟨n, m, b⟩
  refine wp_fetch_bind ho ?_
  cases b with
  | jsObject obj =>
    obtain ⟨shape, prop, data, funcState, records, firstWeakRef⟩ := obj
    obtain ⟨⟨sh, rfl, hsh⟩, hs, rfl, rfl⟩ := hTp
    have hperm : ([sh] ++ prop ++ data ++ frameValues funcState ++ [] ++ P).Perm
        (prop ++ ([sh] ++ (data ++ (frameValues funcState ++ P)))) := by
      simp only [List.append_assoc, List.nil_append]
      exact List.perm_append_comm_assoc ..
    refine (Frees.forM fun c _ => hfree c (hany c)).bind (hi.of_perm hperm) hC' ?_
    intro H₁ rt₁ hi₁ hf₁ hC₁
    refine (frees_jsFreeShape hT (hfree.mono (by omega)) hsh).bind hi₁ hC₁ ?_
    intro H₂ rt₂ hi₂ hf₂ hC₂
    have hf₂ := hf₁.trans hf₂
    have hnp₂ : p ∉ H₂ := fun hc => hnp (hf₂.holders.subset hc)
    obtain ⟨o₂, ho₂⟩ := (hi₂.linked_iff p).1 (hf₂.stays p hl hnp)
    have ht₂ : o₂.body.type = .jsObject := by
      rw [hi₂.types p o₂ ho₂, ← h.types p _ ho]
      rfl
    refine wp_fetch_bind ho₂ (.bind (.of_modify (.ite (fun hw => absurd rfl hw) fun _ => ?_)))
    refine WP.seq (wp_finalizer (fun c => hfree c (hany c)) (store_self ..) hs rfl
      (hi₂.setBody hnp₂ ho₂ ht₂.symm) hC₂) (fun _ _ h => h) ?_
    rintro - rt₃ ⟨H₃, hi₃, hf₃⟩
    have hf₃ := hf₂.trans ((Frame.store ..).trans hf₃)
    have hnp₃ : p ∉ H₃ := fun hc => hnp (hf₃.holders.subset hc)
    obtain ⟨o₃, ho₃⟩ := (hi₃.linked_iff p).1 (hf₃.stays p hl hnp)
    have ht₃ : o₃.body.type = .jsObject := by
      rw [hi₃.types p o₃ ho₃, ← h.types p _ ho]
      rfl
    refine wp_fetch_bind ho₃ (.bind (.of_modify ?_))
    exact hend H₃ _ (hi₃.setBody hnp₃ ho₃ ht₃.symm) (hf₃.trans (.store ..))
  | functionBytecode cpool realm =>
    rw [children, List.append_assoc] at hi
    refine (Frees.forM fun c _ => hfree c (hany c)).bind hi hC' fun H₁ rt₁ hi₁ hf₁ hC₁ => ?_
    refine (Frees.forM fun c hc => ?_).bind hi₁ hC₁ fun H₂ rt₂ hi₂ hf₂ _ => ?_
    · exact frees_jsFreeContext hT (hfree.mono (by omega)) (hTp.typed.2 c hc)
    · exact hend H₂ rt₂ hi₂ (hf₁.trans hf₂)
  | _ => cases hv

/-- The dispatch of `freeRef`, for every scope in which values are released. -/
theorem frees_freeRef_succ {fuel d : Nat} (hfree : FreesBelow body roots C d (freeRef fuel))
    (hvalue : ∀ c, isValueAt body c = true → Frees body roots C (jsFreeValueRT (freeRef fuel) fuel c) [c]) :
    FreesBelow body roots C (d + 1) (freeRef (fuel + 1)) := by
  intro c hd P H rt (h : Inv body roots (c :: P) H rt) hC
  obtain ⟨o, ho, -⟩ := h.exists_pending
  have ht := h.types c o ho
  refine wp_fetch_bind ho ?_
  rw [ht]
  cases hc : (body c).type <;> rw [hc] at hd
  · exact hvalue c (by rw [isValueAt, hc]; rfl) P H rt h hC
  · exact hvalue c (by rw [isValueAt, hc]; rfl) P H rt h hC
  · exact frees_jsFreeShape hT (hfree.mono (Nat.lt_succ_iff.1 hd)) hc P H rt h hC
  · exact frees_freeVarRef hT (hfree.mono (Nat.lt_succ_iff.1 hd)) hc P H rt h hC
  · exact frees_jsAsyncFunctionFree hT (hfree.mono (Nat.lt_succ_iff.1 hd)) hc P H rt h hC
  · exact frees_jsFreeContext hT (hfree.mono (Nat.lt_succ_iff.1 hd)) hc P H rt h hC

/-- The release of a reference while objects are destroyed. -/
theorem frees_freeRef (fuel : Nat) : FreesBelow body roots nested (fuel + 1) (freeRef fuel) := by
  induction fuel with
  | zero =>
    intro c hc
    cases hb : (body c).type <;> rw [hb] at hc <;> exact absurd hc (by decide)
  | succ fuel ih => exact frees_freeRef_succ hT ih fun c hc => frees_jsFreeValueRT fuel hc

/-! ## Values, from outside -/

theorem wp_freeZeroRefcountLoop (hfree : FreesBelow body roots nested 4 free) {fuel : Nat}
    (hfuel : H.length < fuel) (h : Inv body roots P H rt) (hph : rt.gcPhase = .decref)
    (hz : ∀ q ∈ rt.gcZeroRefCountList, q ∈ H) :
    WP (freeZeroRefcountLoop free fuel) rt
      (fun _ rt' => ∃ H', Inv body roots P H' rt' ∧ Frame rt H rt' H' ∧ rt'.gcZeroRefCountList = [])
      fun _ _ => False := by
  induction fuel generalizing H rt with
  | zero => omega
  | succ fuel ih =>
    have hph' : rt.gcPhase ≠ .removeCycles := by rw [hph]; decide
    refine .bind (.of_get ?_)
    split
    · exact .of_pure ⟨H, h, .refl rt H, ‹_›⟩
    · rename_i p l hpl
      have hpz : p ∈ rt.gcZeroRefCountList := by simp [hpl]
      have hpH := hz p hpz
      have hpg : p ∉ rt.gcObjList := fun hg =>
        (List.nodup_append.1 h.nodup).2.2 p (List.mem_append_left _ hg) p hpz rfl
      have h0 : due body (P ++ roots) H p = 0 := by
        have := mt ((h.falling hph').2 p hpH).2 hpg
        omega
      have hv : isValueAt body p = true := by
        by_contra hv
        have := h.parts p hpH (by simpa using hv)
        omega
      obtain ⟨o, ho⟩ := (h.linked_iff p).1 (h.held p hpH)
      have hrc : o.refCount = 0 := by rw [h.counts p o ho, h0]; rfl
      refine wp_fetch_bind ho (.bind (wp_assert (decide_eq_true hrc) ?_))
      refine WP.seq (wp_freeGcObject hT hfree h (C := nested) (by rw [hph]; rintro ⟨⟩)
        ⟨hpH, hv, .inl h0, fun hc => absurd hc hph'⟩) (fun _ _ h => h) ?_
      rintro - rt' ⟨H', hi, hd⟩
      have hlen : H'.length < fuel := by
        have := hd.holders.length_le
        have := List.length_pos_of_mem hpH
        rw [List.length_erase_of_mem hpH] at *
        omega
      have hf : Frame rt H rt' H' := by
        refine ⟨hd.phase, hd.holders.trans List.erase_sublist, hd.stays, fun q hq => ?_, fun q hq => ?_,
          fun hc => absurd hc hph'⟩
        · exact (hd.new q hq).imp_right fun h => h.resolve_right fun hc => hph' hc.1
        · exact (hd.zero q hq).imp_right fun h => h.resolve_right fun hc => hph' hc.1
      have hz' : ∀ q ∈ rt'.gcZeroRefCountList, q ∈ H' := fun q hq =>
        (hf.zero q hq).resolve_right fun hc => hc.2 (hz q hc.1)
      refine (ih hlen hi (hd.phase.trans hph) hz').mono ?_ fun _ _ h => h
      rintro - rt'' ⟨H'', hi', hf', hz''⟩
      exact ⟨H'', hi', hf.trans hf', hz''⟩

omit hT in
theorem Inv.setNone (h : Inv body roots P H rt) (hph : rt.gcPhase ≠ .removeCycles)
    (hz : rt.gcZeroRefCountList = []) : Inv body roots P H { rt with gcPhase := .none } := by
  refine ⟨h.toCounted.of_lists rfl (.refl _) fun _ h => h, fun q hq hn => ?_, h.parts,
    fun _ => h.falling hph, fun _ => hz, ?_⟩
  · exact .inl ((h.idle q hq hn).resolve_right fun hc => hph hc.1)
  · rintro ⟨⟩

theorem frees_jsFreeValueRT_outer {n fuel : Nat} (hfree : FreesBelow body roots nested 4 free)
    (hfuel : n < fuel) (hp : isValueAt body p = true) :
    Frees body roots (outer n) (jsFreeValueRT free fuel p) [p] := by
  intro P H rt (h : Inv body roots (p :: P) H rt) hC
  obtain ⟨o, ho, hl, hd⟩ := h.exists_pending
  refine .bind (wp_decRefCount ho (.ite (fun hle => ?_) fun hlt => ?_))
  · have h0 : due body (P ++ roots) H p = 0 := by omega
    have hph : rt.gcPhase ≠ .removeCycles := by rw [hC.1]; decide
    have hi := h.moveZero ho hp hph h0
    have hf := Frame.moveZero h hph { o with refCount := o.refCount - 1 }
    refine .bind (.of_get (.ite (fun _ => ?_) fun hn => absurd hph hn))
    refine .bind (wp_listDel hl (.bind (.of_modify (.bind (.of_get (.ite (fun _ => ?_) fun hn => ?_))))))
    · refine .bind (.of_modify (WP.seq (wp_freeZeroRefcountLoop hT hfree (Nat.lt_of_le_of_lt hC.2 hfuel) hi rfl ?_)
        (fun _ _ h => h) ?_))
      · intro q hq
        refine (hf.zero q hq).elim id ?_
        rw [h.quiet hC.1]
        rintro ⟨⟨⟩, -⟩
      · rintro - rt' ⟨H', hi', hf', hz⟩
        have hf' := hf.trans hf'
        have hph' : rt'.gcPhase ≠ .removeCycles := by
          rw [hf'.phase]
          rintro ⟨⟩
        exact .of_modify ⟨H', hi'.setNone hph' hz, hC.1.symm, hf'.holders, hf'.stays, hf'.new,
          hf'.zero, fun hc => absurd hc hph⟩
    · exact absurd hC.1 hn
  · exact .of_pure ⟨H, h.dec ho (.inl (by omega)), .store ..⟩

/-- The release of a reference from outside, with at most `n` objects. -/
theorem frees_freeRef_outer {n fuel d : Nat} (hfuel : n + 2 + d ≤ fuel) :
    FreesBelow body roots (outer n) d (freeRef fuel) := by
  induction fuel generalizing d with
  | zero => omega
  | succ fuel ih =>
    cases d with
    | zero => exact fun c hc => absurd hc (by omega)
    | succ d =>
      intro c hc
      have hd : 1 ≤ d := by
        have : 1 ≤ depth (body c).type := by cases (body c).type <;> decide
        omega
      have hfree : FreesBelow body roots nested 4 (freeRef fuel) :=
        (frees_freeRef hT fuel).mono (by omega)
      exact frees_freeRef_succ hT (ih (by omega))
        (fun c hc => frees_jsFreeValueRT_outer hT hfree (by omega) hc) c hc

end CkbJs.Proof.Gc
