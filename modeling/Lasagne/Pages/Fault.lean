import Mathlib
import Lasagne.Pages.MapRange

namespace Lasagne.Pages
open RadixTree StateRun

def inRange (start size address : Word) : Prop :=
  (address - start).toNat < 4096 * pageCount size

instance (start size address : Word) : Decidable (inRange start size address) := by
  unfold inRange
  infer_instance

def serve (faults : List (Word × Word)) : Kernel Unit :=
  faults.forM fun f => pageFaultHandler f.1 f.2

section entries
variable {m : Machine} {e x p flags : Word}

theorem and_swap (x y z : Word) : x &&& y &&& z = x &&& z &&& y := by
  rw [BitVec.and_assoc, BitVec.and_comm y z, BitVec.and_assoc]

theorem grantedFlags_lazy (flags : Word) : grantedFlags flags &&& pgLazy = 0 := by
  rw [grantedFlags, BitVec.and_or_distrib_right, BitVec.and_assoc,
    show ~~~(physAddrMask ||| pgLazy) &&& pgLazy = 0 by decide, show pgRw &&& pgLazy = 0 by decide]
  simp

theorem frameOf_grantedFlags (flags : Word) : frameOf (grantedFlags flags) = 0 := by
  rw [grantedFlags, frameOf, BitVec.and_or_distrib_right, BitVec.and_assoc,
    show ~~~(physAddrMask ||| pgLazy) &&& physAddrMask = 0 by decide,
    show pgRw &&& physAddrMask = 0 by decide]
  simp

theorem or_and {c : Word} (hp : Aligned p) (hc : physAddrMask &&& c = 0) :
    (p ||| x) &&& c = x &&& c := by
  have hzero : p &&& c = 0 := by
    rw [← frameOf_aligned hp, frameOf, BitVec.and_assoc, hc]
    exact BitVec.and_zero
  rw [BitVec.and_or_distrib_right, hzero]
  exact BitVec.zero_or

theorem or_lazy (hp : Aligned p) : (p ||| x) &&& pgLazy = x &&& pgLazy := or_and hp (by decide)

theorem view_granted {q : Word} (hp : Aligned p) (hq : Aligned q)
    (hx : view x = some (q ||| convertFlags flags)) :
    view (p ||| (x &&& ~~~(physAddrMask ||| pgLazy) ||| pgRw)) = some (p ||| grantedFlags flags) := by
  have hpresent := present_of_view hx
  have hmask : x &&& ~~~pgRefcountMask = q ||| convertFlags flags :=
    Option.some.inj ((view_of_present hpresent).symm.trans hx)
  have hkept : (x &&& ~~~(physAddrMask ||| pgLazy)) &&& ~~~pgRefcountMask =
      convertFlags flags &&& ~~~(physAddrMask ||| pgLazy) := by
    rw [and_swap, hmask, or_and hq (by decide)]
  have hnew : present (x &&& ~~~(physAddrMask ||| pgLazy) ||| pgRw) = true := by
    rw [present_eq] at hpresent
    rw [present_or, present_eq, BitVec.getLsbD_and, hpresent]
    decide
  rw [view_of_present (by rw [present_or, hnew, Bool.or_true]), BitVec.and_or_distrib_right,
    BitVec.and_or_distrib_right, hkept, and_not_of_and (frame_refcount_zero (frameOf_aligned hp)),
    and_not_of_and (show pgRw &&& pgRefcountMask = 0 by decide), grantedFlags]

theorem RangeEntry.of_lazy (h : RangeEntry m flags e) (hlazy : e &&& pgLazy ≠ 0) :
    e = m.zeroPage ||| convertFlags flags ∧ convertFlags flags &&& pgLazy ≠ 0 := by
  obtain ⟨p, hp, ⟨rfl, hzero⟩ | ⟨-, rfl, -⟩⟩ := h
  · rw [or_lazy hp] at hlazy
    rw [hzero.mpr ((convertFlags_lazy flags).mp hlazy).2]
    exact ⟨rfl, hlazy⟩
  · rw [or_lazy hp, grantedFlags_lazy] at hlazy
    exact absurd rfl hlazy

theorem RangeEntry.lazy_iff (h : RangeEntry m flags e)
    (hflags : flags &&& mapRw ≠ 0 ∨ flags &&& mapImmediate ≠ 0) :
    e &&& pgLazy = 0 ↔ frameOf e ≠ m.zeroPage := by
  obtain ⟨p, hp, ⟨rfl, hzero⟩ | ⟨-, rfl, hzero⟩⟩ := h
  · rw [or_lazy hp, frameOf_or_aligned hp (frameOf_convertFlags flags), Ne, hzero,
      ← not_iff_not, not_not, ← Ne, convertFlags_lazy]
    exact and_iff_right_of_imp fun himm => hflags.resolve_right fun hne => hne himm
  · rw [or_lazy hp, frameOf_or_aligned hp (frameOf_grantedFlags flags)]
    exact ⟨fun _ => hzero, fun _ => grantedFlags_lazy flags⟩

theorem RangeEntry.rw_cases (h : RangeEntry m flags e) (hrw : flags &&& mapRw ≠ 0) :
    e &&& pgRw ≠ 0 ∧ frameOf e ≠ m.zeroPage ∨ e &&& pgRw = 0 ∧ e &&& pgLazy ≠ 0 := by
  obtain ⟨p, hp, ⟨rfl, hzero⟩ | ⟨-, rfl, hzero⟩⟩ := h
  · have hne : p ≠ m.zeroPage ↔ flags &&& mapImmediate ≠ 0 := not_congr hzero
    rw [or_lazy hp, or_and hp (by decide), frameOf_or_aligned hp (frameOf_convertFlags flags),
      convertFlags_and (c := pgRw) (by decide), if_pos hrw, hne, convertFlags_lazy]
    by_cases himm : flags &&& mapImmediate = 0
    · rw [if_neg (not_not.mpr himm)]
      exact .inr ⟨by decide, hrw, himm⟩
    · rw [if_pos himm]
      exact .inl ⟨by decide, himm⟩
  · rw [or_and hp (by decide), frameOf_or_aligned hp (frameOf_grantedFlags flags), grantedFlags,
      BitVec.and_or_distrib_right]
    exact .inl ⟨fun h0 => absurd (BitVec.or_eq_zero_iff.mp h0).2 (by decide), hzero⟩

theorem RangeEntry.kept_bits (h : RangeEntry m flags e) :
    e &&& (pgUser ||| pgNx) = convertFlags flags &&& (pgUser ||| pgNx) := by
  obtain ⟨p, hp, ⟨rfl, -⟩ | ⟨-, rfl, -⟩⟩ := h
  · exact or_and hp (by decide)
  · rw [or_and hp (by decide), grantedFlags, BitVec.and_or_distrib_right, BitVec.and_assoc,
      show ~~~(physAddrMask ||| pgLazy) &&& (pgUser ||| pgNx) = pgUser ||| pgNx by decide,
      show pgRw &&& (pgUser ||| pgNx) = 0 by decide]
    exact BitVec.or_zero

-- a read-only page has the zero page without the bit that tells so
theorem RangeEntry.readOnly (h : RangeEntry m flags e) (hrw : flags &&& mapRw = 0)
    (himm : flags &&& mapImmediate = 0) : e &&& pgLazy = 0 ∧ frameOf e = m.zeroPage := by
  have hflags : convertFlags flags &&& pgLazy = 0 := by
    by_contra hne
    exact ((convertFlags_lazy flags).mp hne).1 hrw
  obtain ⟨p, hp, ⟨rfl, hzero⟩ | ⟨hne, -, -⟩⟩ := h
  · rw [or_lazy hp, frameOf_or_aligned hp (frameOf_convertFlags flags)]
    exact ⟨hflags, hzero.mpr himm⟩
  · exact absurd hflags hne

end entries

section handler
variable {m : Machine} {a e : Word} (hw : WellFormed m) (hs : index a 39 ≠ pgSelfIndex)
include hw hs

theorem install_mapped_over (hd : depth m a = 4) (he : present e = true) :
    ∃ m', install (entryOf a 3) e m = .ok () m' ∧ Mapped m m' a e ∧ TableWrites m m' ∧
      ∀ pt, tableAt m ((indices a).take 3) = some pt →
        m'.mem = RadixTree.store m.mem pt (slot a 3) e := by
  obtain ⟨pt, hpt⟩ := exists_tableAt (m := m) (a := a) (k := 3) (by omega)
  obtain ⟨hrun, hc⟩ := install_over hw hs hpt he hd
  refine ⟨_, hrun, ⟨⟨leaf_tree hw hs hpt, hc⟩, rfl, rfl, rfl, rfl, ?_, fun q j hq hql => ?_⟩, ?_,
    fun pt' hpt' => ?_⟩
  · rw [hd]
    rfl
  · refine (leaf_look hw hs hpt hq hql).trans (if_congr Iff.rfl rfl ?_)
    rw [if_neg]
    omega
  · exact tableWrites_leaf (outside_take hs 3) (length_take_le le_rfl) hpt rfl hw.tree
      (length_take (by decide)) rfl
  · obtain rfl : pt = pt' := Option.some.inj (hpt.symm.trans hpt')
    rfl

variable {errorCode pt : Word} (hd : depth m a = 4)
  (hpt : tableAt m ((indices a).take 3) = some pt)
include hd hpt

theorem pageFaultHandler_grants
    (hcode : errorCode &&& pfProtViolation ≠ 0 ∧ errorCode &&& pfWrite ≠ 0)
    (hlazy : m.mem pt (slot a 3) &&& pgLazy ≠ 0) :
    ∃ m', pageFaultHandler a errorCode m = .ok () m' ∧ Mapped (m.fetched 1) m' a
      (m.frames m.calls ||| (m.mem pt (slot a 3) &&& ~~~(physAddrMask ||| pgLazy) ||| pgRw)) ∧
      TableWrites m m' ∧ m'.mem = RadixTree.store m.mem pt (slot a 3) (m.frames m.calls |||
        (m.mem pt (slot a 3) &&& ~~~(physAddrMask ||| pgLazy) ||| pgRw)) := by
  have hpresent := present_slot (k := 3) hd hpt
  have hnew : present (m.frames m.calls |||
      (m.mem pt (slot a 3) &&& ~~~(physAddrMask ||| pgLazy) ||| pgRw)) = true := by
    rw [present_eq] at hpresent
    rw [present_or, present_or, present_eq, present_eq, BitVec.getLsbD_and, hpresent]
    simp [physAddrMask, pgLazy]
  obtain ⟨m', hinstall, hm, hwrites, hmem⟩ :=
    install_mapped_over (m := m.fetched 1) ⟨hw.tree, hw.counted⟩ hs hd hnew
  have hget : getFrame m = .ok (m.frames m.calls) (m.fetched 1) := rfl
  refine ⟨m', ?_, hm, ⟨hwrites.tables, hwrites.rest⟩, hmem pt hpt⟩
  rw [pageFaultHandler, bind_ok (ptes_eq hw.tree.self), if_pos hcode,
    bind_ok (load_entryOf (k := 3) hw.tree.self hpt), if_pos hlazy, bind_ok hget, bind_ok hinstall]
  rfl

theorem pageFaultHandler_serves {m' : Machine} (hrun : pageFaultHandler a errorCode m = .ok () m') :
    m.mem pt (slot a 3) &&& pgLazy ≠ 0 ∧ Mapped (m.fetched 1) m' a (m.frames m.calls |||
      (m.mem pt (slot a 3) &&& ~~~(physAddrMask ||| pgLazy) ||| pgRw)) := by
  by_cases hcode : errorCode &&& pfProtViolation ≠ 0 ∧ errorCode &&& pfWrite ≠ 0
  · by_cases hlazy : m.mem pt (slot a 3) &&& pgLazy ≠ 0
    · obtain ⟨m'', hgrant, hm, -⟩ := pageFaultHandler_grants hw hs hd hpt hcode hlazy
      rw [hgrant] at hrun
      injection hrun with _ hm'
      exact ⟨hlazy, hm' ▸ hm⟩
    · rw [pageFaultHandler, bind_ok (ptes_eq hw.tree.self), if_pos hcode,
        bind_ok (load_entryOf (k := 3) hw.tree.self hpt), if_neg hlazy] at hrun
      injection hrun
  · rw [pageFaultHandler, bind_ok (ptes_eq hw.tree.self), if_neg hcode] at hrun
    injection hrun

end handler

theorem Mapped.tableAt_over {m m' : Machine} {v e : Word} {q : List Index} (h : Mapped m m' v e)
    (hd : depth m v = 4) (he : present e = true) (hq : Outside q) (hql : q.length ≤ 4) :
    tableAt m' q = if q = indices v then some (frameOf e) else tableAt m q := by
  have hfresh : FreshFrames m (3 - depth m v) := by
    rw [hd]
    exact ⟨fun _ ht => absurd ht (Nat.not_lt_zero _), fun _ ht => absurd ht (Nat.not_lt_zero _),
      fun _ _ _ ht => absurd ht (Nat.not_lt_zero _), fun _ ht => absurd ht (Nat.not_lt_zero _)⟩
  rw [h.tableAt_full hfresh he hq hql]
  refine if_congr Iff.rfl rfl (if_neg ?_)
  omega

section faults
variable {m m1 m2 : Machine} {start size flags : Word} {n k : Nat} {owner : Nat → List Index}
  (hr : PageRange start size) (hs : Supply m n)
  (h : RangeMapped m m1 start flags (pageCount size) owner) (hn : m1.calls < m.calls + n)
  (hk : k < pageCount size)
include hr hs h hn hk

theorem RangeMapped.replace {a e : Word} (hpath : indices a = indices (pageAt start k))
    (hd : depth m1 a = 4) (hflags : convertFlags flags &&& pgLazy ≠ 0)
    (hleaf : leaf m1 (pageAt start k) = some (m.zeroPage ||| convertFlags flags))
    (he : view e = some (m.frames m1.calls ||| grantedFlags flags))
    (hm : Mapped (m1.fetched 1) m2 a e) :
    (∃ owner', RangeMapped m m2 start flags (pageCount size) owner') ∧ m2.calls = m1.calls + 1 ∧
      ∀ q, Outside q → q.length ≤ 4 →
        tableAt m2 q = if q = indices a then some (m.frames m1.calls) else tableAt m1 q := by
  have hout : Outside (indices a) := hpath ▸ hr.path_outside hk
  have hframe : Aligned (m.frames m1.calls) := hs.frame_aligned h.calls hn
  have hcalls : m2.calls = m1.calls + 1 := by
    have := hm.calls
    rw [depth_fetched, hd] at this
    exact this
  have htable {q : List Index} (hq : Outside q) (hql : q.length ≤ 4) : tableAt m2 q =
      if q = indices a then some (m.frames m1.calls) else tableAt m1 q := by
    rw [hm.tableAt_over hd (present_of_view he) hq hql, show frameOf e = m.frames m1.calls from
      (and_of_view he (by decide)).trans (frameOf_or_aligned hframe (frameOf_grantedFlags flags)),
      tableAt_fetched]
  refine ⟨⟨_, {
    toLedger := h.toLedger.step (fun _ => indices a) (by omega) hm.frames hm.zeroPage
      hm.freed (fun _ hq => hq) (fun t ht htc => ?_) fun q hq hql => ?_
    wf := hm.wf
    tables := fun q hq hql hnone => ?_
    others := fun q hq hql hne => ?_
    otherLeaves := fun v hv hne => ?_
    leaves := fun i hi => ?_ }⟩, hcalls, fun q hq hql => htable hq hql⟩
  · obtain rfl : t = m1.calls := by omega
    rw [htable hout le_rfl, if_pos rfl]
    exact ⟨hout, le_rfl, .inr ⟨rfl, k, hk, hpath⟩, rfl⟩
  · rw [htable hq hql]
    by_cases hqa : q = indices a
    · subst hqa
      refine .inr ⟨.inr ⟨rfl, k, hk, hpath⟩, fun t ht htc he => ?_,
        .inr ⟨m1.calls, le_rfl, by omega, rfl⟩⟩
      have hf := (h.placed t ht htc).2.2.2
      rw [he, hpath, tableAt_leaf, hleaf, Option.map_some,
        frameOf_or_aligned hs.zeroAligned (frameOf_convertFlags flags)] at hf
      exact hs.frame_zero ht (by omega) (Option.some.inj hf).symm
    · rw [if_neg hqa]
      exact .inl ⟨rfl, id⟩
  · rw [htable hq (by omega), if_neg (ne_of_length (by change _ ≠ 4; omega)),
      h.tables q hq hql hnone]
  · rw [htable hq (by omega), if_neg (hpath ▸ hne k hk), h.others q hq hql hne]
  · rw [hm.leaf_eq hv, if_neg (hpath ▸ hne k hk)]
    exact h.otherLeaves v hv hne
  · rw [hm.leaf_eq (hr.outside i hi)]
    by_cases hia : indices (pageAt start i) = indices a
    · rw [if_pos hia, he]
      exact ⟨_, rfl, _, hframe, .inr ⟨hflags, rfl, hs.frame_zero h.calls hn⟩⟩
    · rw [if_neg hia]
      exact h.leaves i hi

omit hk in
theorem RangeMapped.fault {a errorCode : Word} (ha : inRange start size a)
    (hrun : pageFaultHandler a errorCode m1 = .ok () m2) :
    (∃ owner', RangeMapped m m2 start flags (pageCount size) owner') ∧ m2.calls = m1.calls + 1 := by
  obtain ⟨k, hk, hpath⟩ := hr.exists_page ha
  have hout : index a 39 ≠ pgSelfIndex := away_cons.mp (hpath ▸ hr.path_outside hk)
  obtain ⟨e, he, hentry⟩ := h.leaves k hk
  obtain ⟨hd, pt, hpt, hview⟩ := leaf_cases ((leaf_congr m1 hpath).trans he)
  obtain ⟨hlazy, hm⟩ := pageFaultHandler_serves h.wf hout hd hpt hrun
  rw [and_of_view hview (by decide)] at hlazy
  obtain ⟨rfl, hflags⟩ := hentry.of_lazy hlazy
  have hnew := view_granted (hs.frame_aligned h.calls hn) hs.zeroAligned hview
  rw [← h.frames] at hnew
  obtain ⟨hmapped, hcalls, -⟩ := h.replace hr hs hn hk hpath hd hflags he (h.frames ▸ hnew) hm
  exact ⟨hmapped, hcalls⟩

omit hk hn in
theorem RangeMapped.serve {faults : List (Word × Word)}
    (hin : ∀ f ∈ faults, inRange start size f.1) (hn : m1.calls + faults.length ≤ m.calls + n)
    (hrun : serve faults m1 = .ok () m2) :
    (∃ owner', RangeMapped m m2 start flags (pageCount size) owner') ∧
      m2.calls = m1.calls + faults.length := by
  induction faults generalizing m1 owner with
  | nil =>
    injection hrun with _ hm
    exact hm ▸ ⟨⟨owner, h⟩, rfl⟩
  | cons f faults ih =>
    rw [List.length_cons] at hn
    cases hfirst : pageFaultHandler f.1 f.2 m1 with
    | error e m' =>
      have hstop : Pages.serve (f :: faults) m1 = .error e m' := bind_error hfirst
      rw [hstop] at hrun
      injection hrun
    | ok u m' =>
      obtain ⟨⟨owner', h'⟩, hcalls⟩ := h.fault hr hs (by omega) (hin f List.mem_cons_self) hfirst
      obtain ⟨hrest, hcalls'⟩ := ih h' (fun g hg => hin g (List.mem_cons_of_mem f hg)) (by omega)
        ((bind_ok hfirst).symm.trans hrun)
      exact ⟨hrest, by rw [hcalls', hcalls, List.length_cons]; omega⟩

end faults

end Lasagne.Pages
