import CkbJs.Proof.CkbModule.Load

/-!
# Partial loading

A load whose arguments are Numbers delivers what the documentation of partial
loading says, in each of its modes (`wp_syscallLoad_delivers`), and reading
an item in consecutive pieces gives the whole item. Without a length the probe
for it stores the item from address 0 on as well, where the program must not
be (`partial_loading_iff`).
-/

namespace CkbJs.Proof.CkbModule

open CkbJs.Impl CkbJs.Impl.CkbModule CkbJs.Spec.CkbModule

variable {env : Env} {s : Vm}

/-- The read of an item that is found, when nothing runs out. -/
theorem wp_readInto_data {data : LoadData} {length : Nat} {bs : List Byte}
    (hm : env.malloc s.clock length = true)
    (hr : env.kernel.loadRet (s.clock + 1) data.request = 0)
    (hb : env.newArrayBuffer (s.clock + 2) = true) (hlt : (remaining env data).length < 2 ^ 31)
    (hbs : (remaining env data).take length = bs) :
    WP (readInto env data length) s
      (fun r s' => (∃ block, r = .arrayBuffer block bs.length ∧ (s'.block block).take bs.length = bs) ∧
        s'.null = s.null) (fun _ _ => False) := by
  subst hbs
  refine wp_readInto (fun h => nomatch h.symm.trans hm) (fun _ hr' => ?_) fun _ hr' => absurd hr hr'
  have hlen : min (remaining env data).length length % 2 ^ 32 =
      ((remaining env data).take length).length := by rw [List.length_take]; omega
  refine wp_wrap (fun _ _ => ⟨⟨s.nextBlock, by rw [hlen], ?_⟩, null_loaded_some ..⟩) fun h => ?_
  · exact (congrArg (List.take _) (block_loaded_allocated hr')).trans List.take_left
  · rw [clock_loaded] at h
    rcases h with h | h
    · exact nomatch h.symm.trans hb
    · omega

/-- The bytes from `min o n` to `min (o + L) n` are the first `L` bytes from
`o` on. -/
theorem drop_take_min {α : Type} (item : List α) (o L : Nat) :
    (item.take (min (o + L) item.length)).drop (min o item.length) = (item.drop o).take L := by
  rw [List.take_eq_take_min.symm, List.drop_take]
  by_cases ho : o ≤ item.length
  · rw [Nat.min_eq_left ho, Nat.add_sub_cancel_left]
  · rw [Nat.min_eq_right (by omega), List.drop_of_length_le (by omega),
      List.drop_of_length_le (by omega), List.take_nil, List.take_nil]

theorem documented_succ (item : List Byte) (L : Nat) (offset : Option Nat) :
    documented item (some (L + 1)) offset = .data ((item.drop (offset.getD 0)).take (L + 1)) :=
  congrArg Reply.data (drop_take_min ..)

/-- How much a load without a length stores from address 0 on. -/
def probed (item : List Byte) (length : Option Nat) : Nat := if length = none then item.length else 0

/-- What a load does whose data encode an optional length and offset. -/
theorem wp_syscallLoad_delivers {d : LoadData} {length offset : Option Nat}
    (hlength : d.length = length.getD NO_VALUE) (hoffset : d.offset = offset.getD NO_VALUE)
    (hL : ∀ L, length = some L → L ≤ 2 ^ 53) (ho : ∀ o, offset = some o → o ≤ 2 ^ 53)
    (hnone : length = none → offset = none) (hn : (env.kernel.item d.request).length < 2 ^ 31)
    (hf : Finds env s d.request (length.getD (env.kernel.item d.request).length)) :
    WP (syscallLoad env d) s
      (fun r s' => Delivers (.returned r, s') (documented (env.kernel.item d.request) length offset) ∧
        s'.null.length = max s.null.length (probed (env.kernel.item d.request) length))
      (fun _ _ => False) := by
  have hstart : (start d).offset = offset.getD 0 := by
    rw [offset_start, hoffset]
    cases offset with
    | none => rfl
    | some o =>
      have := ho o rfl
      exact if_neg (by simp only [Option.getD_some, NO_VALUE]; omega)
  have hrem : remaining env (start d) = (env.kernel.item d.request).drop (offset.getD 0) := by
    rw [remaining, request_start, hstart]
  have hret (t : Nat) (h : t < 4) : env.kernel.loadRet (s.clock + t) (start d).request = 0 := by
    rw [request_start]; exact hf.lookup _ (by omega) (by omega)
  have hlt : (remaining env (start d)).length < 2 ^ 31 := by rw [hrem, List.length_drop]; omega
  rw [syscallLoad_eq, hlength]
  rcases length with _ | _ | L
  · obtain rfl := hnone rfl
    rw [Option.getD_none, if_neg (by decide), if_pos rfl]
    refine wp_load_check (fun _ => ?_) fun h => absurd (hret 0 (by decide)) h
    have hall : remaining env (start d) = env.kernel.item d.request := by rw [hrem]; rfl
    have hstored : (loaded env s none NO_VALUE (start d)).null.length =
        max s.null.length (probed (env.kernel.item d.request) none) := by
      rw [length_null_loaded (hret 0 (by decide)), hall, probed, if_pos rfl, Nat.min_eq_right]
      unfold NO_VALUE
      omega
    refine (wp_readInto_data ?_ ?_ ?_ hlt (List.take_length ..)).mono ?_ fun _ _ h => h
    · rw [clock_loaded, hall]; exact hf.malloc _ (by omega) (by omega)
    · rw [clock_loaded]; exact hret 2 (by decide)
    · rw [clock_loaded]; exact hf.newArrayBuffer _ (by omega) (by omega)
    · rintro r s' ⟨⟨block, rfl, hb⟩, hnull⟩
      refine ⟨⟨block, ?_, ?_⟩, by rw [hnull, hstored]⟩
      · rw [hall]
      · rwa [hall] at hb
  · rw [Option.getD_some, if_pos rfl]
    refine wp_load_check (fun _ => ?_) fun h => absurd (hret 0 (by decide)) h
    refine ⟨⟨_, rfl, ?_⟩, ?_⟩
    · rw [Nat.mod_eq_of_lt (by omega), hrem, List.length_drop]
      exact isNumber_newUint32 (by omega)
    · rw [length_null_loaded (hret 0 (by decide)), Nat.zero_min]
      rfl
  · have hL := hL _ rfl
    rw [Option.getD_some, if_neg (Nat.succ_ne_zero L), if_neg (by unfold NO_VALUE; omega)]
    refine (wp_readInto_data ?_ (hret 1 (by decide)) ?_ hlt (congrArg _ hrem)).mono ?_ fun _ _ h => h
    · exact hf.malloc _ (by omega) (by omega)
    · exact hf.newArrayBuffer _ (by omega) (by omega)
    · rintro r s' ⟨hb, hnull⟩
      rw [documented_succ]
      obtain ⟨block, rfl, hb⟩ := hb
      exact ⟨⟨block, rfl, hb⟩, by rw [hnull]; exact (Nat.max_zero _).symm⟩

/-! ## Calls with Numbers -/

theorem toInt64Free_of_isSize {E : Engine} {v : JSValue} {x : Nat} (h : IsSize E v x) :
    ∃ i, toInt64Free E v = some i ∧ size i = x := by
  obtain ⟨-, i, hi, hx⟩ := h
  exact ⟨i, hi, by rw [size, ← hx, Int.toNat_natCast]⟩

/-- An optional Number, as a `size_t`. -/
theorem optInt64_of_isNumber {E : Engine} {c : Prop} [Decidable c] {v : JSValue} {n : Option Nat}
    (h0 : n = none → ¬c) (h1 : ∀ x, n = some x → c ∧ x ≤ 2 ^ 53 ∧ IsNumber v x) :
    ∃ r, optInt64 E c v = some r ∧ size r = n.getD NO_VALUE := by
  unfold optInt64
  cases n with
  | none => exact ⟨-1, if_neg (h0 rfl), by decide⟩
  | some x =>
    obtain ⟨hc, hx, hv⟩ := h1 x rfl
    rw [if_pos hc, toInt64Free_of_isNumber hv (by omega)]
    exact ⟨x, rfl, size_natCast (by omega)⟩

/-- What a load asks the kernel for is the item it is documented to read. -/
theorem itemOf_of_loader {b : Binding} {hasField : Bool} {d : LoadData} {field : Nat}
    (hb : loader b = some (hasField, d.func)) (hfield : hasField = true → d.field = field) :
    itemOf d.index d.source field b = some d.request := by
  obtain ⟨length, index, source, offset, fieldOfLoad, func⟩ := d
  cases b <;> cases hb <;> first | rfl | (cases hfield rfl; rfl)

/-- The data of a call with Numbers. -/
theorem loadData_of_numberCall {E : Engine} {b : Binding} {hasField : Bool} {func : LoadFunc} {a : Args}
    {index source field : Nat} {length offset : Option Nat} (hb : loader b = some (hasField, func))
    (h : NumberCall E hasField a index source field length offset) :
    ∃ d, loadData E hasField a func = some d ∧ d.length = length.getD NO_VALUE ∧
      d.offset = offset.getD NO_VALUE ∧ itemOf index source field b = some d.request := by
  obtain ⟨i, hi, hindex⟩ := toInt64Free_of_isSize h.index
  obtain ⟨j, hj, hsource⟩ := toInt64Free_of_isSize h.source
  have hargc := h.argc
  have hfield : ∃ k, optInt64 E (hasField ∧ a.argc > 2) (a.slot 2) = some k ∧
      (hasField = true → size k = field) := by
    unfold optInt64
    split
    · obtain ⟨k, hk, hsize⟩ := toInt64Free_of_isSize (h.field (And.left ‹_›))
      exact ⟨k, hk, fun _ => hsize⟩
    · rename_i hno
      refine ⟨-1, rfl, fun hf => absurd ⟨hf, ?_⟩ hno⟩
      rw [hf] at hargc
      exact hargc
  obtain ⟨k, hk, hsize⟩ := hfield
  obtain ⟨l, hl, hls⟩ := optInt64_of_isNumber (E := E) (c := a.argc > varArg hasField)
    (fun hn => by have := h.length_none hn; omega) h.length_some
  obtain ⟨o, ho, hos⟩ := optInt64_of_isNumber (E := E) (c := a.argc > varArg hasField + 1)
    (fun hn => by have := h.offset_none hn; omega) h.offset_some
  let d : LoadData :=
    { func := func, length := size l, index := size i, source := size j, offset := size o, field := size k }
  have hitem : itemOf (size i) (size j) field b = some d.request := itemOf_of_loader (d := d) hb hsize
  rw [hindex, hsource] at hitem
  exact ⟨d, loadData_eq_some.mpr ⟨i, j, k, l, o, hi, hj, hk, hl, ho, rfl⟩, hls, hos, hitem⟩

/-- A call of a load with Numbers delivers the documented reply, and stores
from address 0 on where it has no length. -/
theorem delivers_of_numberCall {b : Binding} {hasField : Bool} {func : LoadFunc} {a : Args}
    {index source field : Nat} {length offset : Option Nat} {req : LoadReq}
    (hb : loader b = some (hasField, func))
    (hc : NumberCall env.engine hasField a index source field length offset)
    (hreq : itemOf index source field b = some req) (hn : (env.kernel.item req).length < 2 ^ 31)
    (hf : Finds env s req (length.getD (env.kernel.item req).length)) :
    Delivers (run env b a s) (documented (env.kernel.item req) length offset) ∧
      (run env b a s).2.null.length = max s.null.length (probed (env.kernel.item req) length) := by
  obtain ⟨d, hd, hlength, hoffset, hitem⟩ := loadData_of_numberCall hb hc
  obtain rfl : d.request = req := Option.some.inj (hitem.symm.trans hreq)
  have hw : WP (loadWith env hasField func a) { s with events := [] }
      (fun r s' => Delivers (.returned r, s') (documented (env.kernel.item d.request) length offset) ∧
        s'.null.length = max s.null.length (probed (env.kernel.item d.request) length))
      (fun _ _ => False) := by
    refine wp_loadWith (fun d' hd' s' hr => ?_) fun hn => nomatch hd.symm.trans hn
    obtain rfl := Option.some.inj (hd.symm.trans hd')
    have hclock : s'.clock = s.clock := hr.clock
    have hnull : s.null = s'.null := hr.null.symm
    rw [hnull]
    refine wp_syscallLoad_delivers hlength hoffset (fun L hL => (hc.length_some L hL).2.1)
      (fun o ho => (hc.offset_some o ho).2.1) (fun hnone => ?_) hn ?_
    · cases offset with
      | none => rfl
      | some o =>
        have := hc.length_none hnone
        have := (hc.offset_some o rfl).1
        omega
    · exact ⟨hclock ▸ hf.lookup, hclock ▸ hf.malloc, hclock ▸ hf.newArrayBuffer⟩
  rw [← func_of_loader hb] at hw
  exact call_of_wp (fun o s' => Delivers (o, s') _ ∧ s'.null.length = _)
    (hw.mono (fun _ _ h => h) fun _ _ h => h.elim)

/-- A load with Numbers delivers the documented reply, and leaves the program
as it is unless it has no length and the item reaches up to the program. -/
theorem loads_iff {b : Binding} {hasField : Bool} {func : LoadFunc} {a : Args}
    {index source field : Nat} {length offset : Option Nat} {req : LoadReq}
    (hb : loader b = some (hasField, func))
    (hc : NumberCall env.engine hasField a index source field length offset)
    (hreq : itemOf index source field b = some req) (hs : Intact env s)
    (hn : (env.kernel.item req).length < 2 ^ 31)
    (hf : Finds env s req (length.getD (env.kernel.item req).length)) :
    Loads env (run env b a s) (documented (env.kernel.item req) length offset) ↔
      (length = none → (env.kernel.item req).length ≤ env.base) := by
  obtain ⟨hd, hnull⟩ := delivers_of_numberCall hb hc hreq hn hf
  have hs : s.null.length ≤ env.base := hs
  rw [Loads, and_iff_left hd, Intact, hnull, Nat.max_le, and_iff_right hs, probed]
  split
  · rw [forall_prop_of_true ‹_›]
  · exact iff_of_true (Nat.zero_le _) fun h => absurd h ‹_›

/-- Consecutive pieces of `c` bytes, put together. -/
theorem flatMap_pieces {α : Type} (item : List α) (c k : Nat) :
    (List.range k).flatMap (fun i => (item.drop (i * c)).take c) = item.take (k * c) := by
  induction k with
  | zero => simp
  | succ k ih =>
    rw [List.range_succ, List.flatMap_append, ih, Nat.succ_mul, List.take_add]
    simp

/-- Partial loading: every call of a load with Numbers that finds its item
delivers the documented reply, and leaves the program as it is exactly where it
has a length or the item ends below the program; reading consecutive pieces of
`c` bytes gives the whole item. -/
theorem partial_loading_iff (env : Env) (b : Binding) (hasField : Bool) (func : LoadFunc)
    (hb : loader b = some (hasField, func)) :
    (∀ a index source field length offset,
      NumberCall env.engine hasField a index source field length offset →
      ∃ req, itemOf index source field b = some req ∧
        ∀ s, Intact env s → (env.kernel.item req).length < 2 ^ 31 →
          Finds env s req (length.getD (env.kernel.item req).length) →
          (Loads env (run env b a s) (documented (env.kernel.item req) length offset) ↔
            (length = none → (env.kernel.item req).length ≤ env.base))) ∧
    ∀ (index source field : Nat) (req : LoadReq) (c k : Nat) (args : Nat → Args) (vm : Nat → Vm),
      itemOf index source field b = some req → 0 < c → (env.kernel.item req).length < 2 ^ 31 →
      (env.kernel.item req).length ≤ k * c →
      (∀ i < k, NumberCall env.engine hasField (args i) index source field (some c) (some (i * c)) ∧
        Intact env (vm i) ∧ Finds env (vm i) req c) →
      ∃ piece : Nat → List Byte,
        (∀ i < k, Loads env (run env b (args i) (vm i)) (.data (piece i))) ∧
        (List.range k).flatMap piece = env.kernel.item req := by
  constructor
  · intro a index source field length offset hc
    obtain ⟨d, -, -, -, hreq⟩ := loadData_of_numberCall hb hc
    exact ⟨d.request, hreq, fun s hs hn hf => loads_iff hb hc hreq hs hn hf⟩
  · intro index source field req c k args vm hreq hc hn hk h
    refine ⟨fun i => ((env.kernel.item req).drop (i * c)).take c, fun i hi => ?_, ?_⟩
    · obtain ⟨hcall, hs, hf⟩ := h i hi
      have hd := (loads_iff hb hcall hreq hs hn hf).mpr nofun
      obtain ⟨c, rfl⟩ := Nat.exists_eq_succ_of_ne_zero (Nat.pos_iff_ne_zero.mp hc)
      rwa [documented_succ, Option.getD_some] at hd
    · rw [flatMap_pieces, List.take_of_length_le hk]

theorem isSize_int (E : Engine) {i : BitVec 32} {x : Nat} (h : (x : Int) = i.toInt % 2 ^ 64) :
    IsSize E (.int i) x :=
  ⟨.inl ⟨i, rfl⟩, i.toInt, rfl, h⟩

theorem partial_loading_pieces :
    ∃ piece : Nat → List Byte,
      (∀ i < 3, Loads world (run world .loadCell (loadCellArgs [0, 1, 3, BitVec.ofNat 32 (i * 3)]) Vm.init)
        (.data (piece i))) ∧
      (List.range 3).flatMap piece = [1, 2, 3, 4, 5, 6, 7, 8] := by
  refine (partial_loading_iff world .loadCell false .cell rfl).2 0 1 0 (.cell 0 1) 3 3
    (fun i => loadCellArgs [0, 1, 3, BitVec.ofNat 32 (i * 3)]) (fun _ => Vm.init) rfl (by decide)
    (by decide) (by decide) fun i hi => ?_
  have hcall (o : BitVec 32) (x : Nat) (ho : o.toInt = x) (hx : x ≤ 2 ^ 53) :
      NumberCall world.engine false (loadCellArgs [0, 1, 3, o]) 0 1 0 (some 3) (some x) := by
    refine ⟨isSize_int _ rfl, isSize_int _ rfl, nofun, show 2 ≤ 4 by decide, nofun, ?_, nofun, ?_⟩
    · rintro _ ⟨⟩; exact ⟨show 2 < 4 by decide, by decide, .int rfl⟩
    · rintro _ ⟨⟩; exact ⟨show 3 < 4 by decide, hx, .int ho⟩
  have hs : Intact world Vm.init := Nat.zero_le _
  have hf : Finds world Vm.init (.cell 0 1) 3 :=
    ⟨fun _ _ _ => rfl, fun _ _ _ => rfl, fun _ _ _ => rfl⟩
  obtain rfl | rfl | rfl : i = 0 ∨ i = 1 ∨ i = 2 := by omega
  · exact ⟨hcall 0 0 rfl (by decide), hs, hf⟩
  · exact ⟨hcall 3 3 rfl (by decide), hs, hf⟩
  · exact ⟨hcall 6 6 rfl (by decide), hs, hf⟩

/-- A world of items that reach one byte into a program at the address 0x10000. -/
def longWorld : Env :=
  { world with kernel := { world.kernel with item := fun _ => List.replicate 0x10001 0 } }

/-- Without a length, `load_cell` of such an item overwrites the program. -/
theorem not_partial_loading :
    NumberCall longWorld.engine false (loadCellArgs [0, 1]) 0 1 0 none none ∧
    Finds longWorld Vm.init (.cell 0 1) 0x10001 ∧
    ¬Loads longWorld (run longWorld .loadCell (loadCellArgs [0, 1]) Vm.init)
      (documented (longWorld.kernel.item (.cell 0 1)) none none) := by
  have hcall : NumberCall longWorld.engine false (loadCellArgs [0, 1]) 0 1 0 none none :=
    ⟨isSize_int _ rfl, isSize_int _ rfl, nofun, Nat.le_refl 2, fun _ => rfl, nofun,
      fun _ => show 2 ≤ 3 by decide, nofun⟩
  have hf : Finds longWorld Vm.init (.cell 0 1) 0x10001 :=
    ⟨fun _ _ _ => rfl, fun _ _ _ => rfl, fun _ _ _ => rfl⟩
  have hlen : (longWorld.kernel.item (.cell 0 1)).length = 0x10001 := List.length_replicate
  refine ⟨hcall, hf, fun h => ?_⟩
  rw [loads_iff rfl hcall rfl (Nat.zero_le _) (by rw [hlen]; decide) (by rwa [hlen]), hlen] at h
  exact absurd (h rfl) (by decide)

end CkbJs.Proof.CkbModule
