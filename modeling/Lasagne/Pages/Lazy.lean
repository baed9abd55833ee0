import Mathlib
import Lasagne.Pages.Access
import Lasagne.Pages.Balance

namespace Lasagne.Pages
open RadixTree StateRun
open X86 (canonical)

structure ClearSupply (m : Machine) (count : Nat) : Prop extends Supply m count where
  framesClear : ∀ t < count, ∀ i, m.mem (m.frames (m.calls + t)) i = 0
  zeroClear : ∀ i, m.mem m.zeroPage i = 0
  zeroNoTable : ¬ IsTable m m.zeroPage

def pageNo (start a : Word) : Nat := (a - start).toNat / 4096

def storedPages (start : Word) : List Access → Finset Nat
  | [] => ∅
  | .load _ :: rest => storedPages start rest
  | .store address _ _ :: rest => insert (pageNo start address) (storedPages start rest)

-- m' has the range mapped, the pages granted have frames of their own, and they hold what memory says
structure Backed (m m' : Machine) (start size flags : Word) (n : Nat) (granted : Finset Nat)
    (memory : Word → Byte) : Prop where
  mapped : ∃ owner, RangeMapped m m' start flags (pageCount size) owner
  calls : m'.calls = m.calls + (missingTables m start (pageCount size)).card + granted.card
  granted_lt : ∀ k ∈ granted, k < pageCount size
  shared : ∀ k < pageCount size,
    tableAt m' (indices (pageAt start k)) = some m.zeroPage ↔ k ∉ granted
  zeroClear : ∀ i, m'.mem m.zeroPage i = 0
  framesClear : ∀ t, m'.calls ≤ t → t < m.calls + n → ∀ i, m'.mem (m.frames t) i = 0
  contents : ∀ a f i, inRange start size a → walk m' a = some (f, i) →
    byteOf (m'.mem f i) a = memory a

section store
variable {m m1 : Machine} {start size flags f : Word} {owner : Nat → List Index}

theorem tableAt_store (hf : ¬ IsTable m1 f) (i : Index) (x : Word) {q : List Index} (hq : Outside q)
    (hql : q.length ≤ 4) : tableAt (m1.withMem (RadixTree.store m1.mem f i x)) q = tableAt m1 q :=
  Tree.reach_fill (d := 3) (fun q hq hql hfq => hf ⟨q, hq, hql, hfq⟩) hq hql

theorem RangeMapped.store (h : RangeMapped m m1 start flags (pageCount size) owner)
    (hr : PageRange start size) (hf : ¬ IsTable m1 f) (i : Index) (x : Word) :
    RangeMapped m (m1.withMem (RadixTree.store m1.mem f i x)) start flags (pageCount size) owner := by
  have hno (q : List Index) (hq : Outside q) (hql : q.length ≤ 3) : tableAt m1 q ≠ some f :=
    fun hfq => hf ⟨q, hq, hql, hfq⟩
  have htable {q : List Index} (hq : Outside q) (hql : q.length ≤ 4) :
      tableAt (m1.withMem (RadixTree.store m1.mem f i x)) q = tableAt m1 q :=
    tableAt_store hf i x hq hql
  have hleaf {v : Word} (hv : index v 39 ≠ pgSelfIndex) :
      leaf (m1.withMem (RadixTree.store m1.mem f i x)) v = leaf m1 v :=
    look_fill hno (outside_take hv 3) (length_take_le le_rfl)
  exact {
    calls := h.calls
    frames := h.frames
    zeroPage := h.zeroPage
    freed := h.freed
    kept := fun q g hq hql hpage hg => (htable hq hql).trans (h.kept q g hq hql hpage hg)
    placed := fun t ht htc => by
      obtain ⟨hq, hql, hnew, hg⟩ := h.placed t ht htc
      exact ⟨hq, hql, hnew, (htable hq hql).trans hg⟩
    covers := fun q g hq hql hnew hg => h.covers q g hq hql hnew ((htable hq hql).symm.trans hg)
    wf := ⟨h.wf.tree.fill hno, h.wf.counted.fill hno⟩
    tables := fun q hq hql hnone => by
      rw [htable hq (by omega)]
      exact h.tables q hq hql hnone
    others := fun q hq hql hne => (htable hq hql.le).trans (h.others q hq hql hne)
    otherLeaves := fun v hv hne => (hleaf hv).trans (h.otherLeaves v hv hne)
    leaves := fun k hk => by
      obtain ⟨e, he, hentry⟩ := h.leaves k hk
      exact ⟨e, (hleaf (hr.outside k hk)).trans he, hentry⟩ }

end store

section page
variable {m m1 : Machine} {start size flags a : Word} {owner : Nat → List Index}
  (h : RangeMapped m m1 start flags (pageCount size) owner) (hr : PageRange start size)
include h hr

theorem RangeMapped.page_of (ha : inRange start size a) : pageNo start a < pageCount size ∧
    a >>> 12 = pageAt start (pageNo start a) >>> 12 ∧
    indices a = indices (pageAt start (pageNo start a)) ∧
      index a 39 ≠ pgSelfIndex ∧ ∃ e, leaf m1 a = some e ∧ RangeEntry m flags e ∧
        tableAt m1 (indices a) = some (frameOf e) ∧ walk m1 a = some (frameOf e, index a 3) := by
  obtain ⟨hk, hpage⟩ := hr.pageAt_of ha
  have hpath := indices_of_page hpage
  have hout : index a 39 ≠ pgSelfIndex := away_cons.mp (hpath ▸ hr.path_outside hk)
  obtain ⟨e, he, hentry⟩ := h.leaves _ hk
  have hleaf : leaf m1 a = some e := (leaf_congr m1 hpath).trans he
  have htable : tableAt m1 (indices a) = some (frameOf e) := by
    rw [tableAt_leaf, hleaf]
    rfl
  refine ⟨hk, hpage, hpath, hout, e, hleaf, hentry, htable, ?_⟩
  rw [walk, if_pos (canonical_congr hpage (hr.canonical _ hk)), htable]
  rfl

omit h in
theorem new_path (ha : inRange start size a) : New m (firstPages start (pageCount size)) (indices a) := by
  obtain ⟨hk, hpage⟩ := hr.pageAt_of ha
  exact .inr ⟨rfl, _, hk, indices_of_page hpage⟩

variable {n : Nat} {f : Word} (hs : Supply m n) (hn : m1.calls ≤ m.calls + n)
include hs hn

theorem RangeMapped.frame_notTable (ha : inRange start size a) (hzero : ¬ IsTable m m.zeroPage)
    (hf : tableAt m1 (indices a) = some f) : ¬ IsTable m1 f := by
  obtain ⟨hk, -, hpath, -⟩ := h.page_of hr ha
  by_cases hz : f = m.zeroPage
  · rw [hz]
    exact h.toLedger.zero_notTable hs hn hzero
  · exact h.toLedger.page_notTable hs hn (hpath ▸ hr.path_outside hk) rfl (new_path hr ha) hf hz

theorem RangeMapped.page_unique {b : Word} (ha : inRange start size a) (hb : inRange start size b)
    (hfa : tableAt m1 (indices a) = some f) (hfb : tableAt m1 (indices b) = some f)
    (hz : f ≠ m.zeroPage) : a >>> 12 = b >>> 12 := by
  obtain ⟨hj, hja, hpa, -⟩ := h.page_of hr ha
  obtain ⟨hk, hkb, hpb, -⟩ := h.page_of hr hb
  have hpath := h.toLedger.once hs hn (hpa ▸ hr.path_outside hj) (hpb ▸ hr.path_outside hk) le_rfl
    le_rfl (new_path hr ha) (new_path hr hb) hfa hfb hz
  have hsame := hr.indices_inj hj hk (hpa.symm.trans (hpath.trans hpb))
  rw [hja, hkb, hsame]

end page

section accesses
variable {m m1 : Machine} {start size flags a : Word} {n : Nat} {granted : Finset Nat}
  {memory : Word → Byte} (h : Backed m m1 start size flags n granted memory)
include h

theorem Backed.calls_lt {k : Nat}
    (hn : (missingTables m start (pageCount size)).card + pageCount size ≤ n)
    (hk : k < pageCount size) (hnot : k ∉ granted) : m1.calls < m.calls + n := by
  have hsub : insert k granted ⊆ Finset.range (pageCount size) := fun i hi => by
    rcases Finset.mem_insert.mp hi with rfl | hi
    · exact Finset.mem_range.mpr hk
    · exact Finset.mem_range.mpr (h.granted_lt i hi)
  have hcard := Finset.card_le_card hsub
  rw [Finset.card_insert_of_notMem hnot, Finset.card_range] at hcard
  have := h.calls
  omega

theorem Backed.calls_le
    (hn : (missingTables m start (pageCount size)).card + pageCount size ≤ n) :
    m1.calls ≤ m.calls + n := by
  have hcard := Finset.card_le_card (show granted ⊆ Finset.range (pageCount size) from
    fun i hi => Finset.mem_range.mpr (h.granted_lt i hi))
  rw [Finset.card_range] at hcard
  have := h.calls
  omega

variable (hr : PageRange start size)
include hr

theorem Backed.load (ha : inRange start size a) : loadByte a m1 = .ok (memory a) m1 := by
  obtain ⟨owner, hmap⟩ := h.mapped
  obtain ⟨-, -, -, -, e, -, -, -, hwalk⟩ := hmap.page_of hr ha
  have hload : Pages.load a m1 = .ok (m1.mem (frameOf e) (index a 3)) m1 := by
    rw [Pages.load, hwalk]
  rw [loadByte, bind_ok hload, ← h.contents a _ _ ha hwalk]
  rfl

theorem Backed.granted_iff {e : Word} (ha : inRange start size a) (he : leaf m1 a = some e) :
    pageNo start a ∈ granted ↔ frameOf e ≠ m.zeroPage := by
  obtain ⟨owner, hmap⟩ := h.mapped
  obtain ⟨hk, -, hpath, -, e', he', -, htable, -⟩ := hmap.page_of hr ha
  obtain rfl : e = e' := Option.some.inj (he.symm.trans he')
  have hshared := h.shared _ hk
  rw [← hpath, htable, Option.some_inj] at hshared
  rw [Ne, hshared, not_not]

variable (hs : Supply m n) (hzero : ¬ IsTable m m.zeroPage)
  (hn : (missingTables m start (pageCount size)).card + pageCount size ≤ n)
include hs hzero hn

theorem Backed.store {e : Word} (ha : inRange start size a) (he : leaf m1 a = some e)
    (hz : frameOf e ≠ m.zeroPage) (x : Byte) : ∃ m2, storeByte a x m1 = .ok () m2 ∧
      Backed m m2 start size flags n granted (Function.update memory a x) := by
  have hcalls := h.calls_le hn
  obtain ⟨owner, hmap⟩ := h.mapped
  obtain ⟨hk, -, hpath, -, e', he', -, htable, hwalk⟩ := hmap.page_of hr ha
  obtain rfl : e = e' := Option.some.inj (he.symm.trans he')
  have hnt := hmap.frame_notTable hr hs hcalls ha hzero htable
  obtain ⟨t, htm, ht1, -, hframe⟩ := hmap.toLedger.page_frame (hpath ▸ hr.path_outside hk) le_rfl
    (new_path hr ha) htable hz
  have hload : Pages.load a m1 = .ok (m1.mem (frameOf e) (index a 3)) m1 := by
    rw [Pages.load, hwalk]
  refine ⟨m1.withMem (RadixTree.store m1.mem (frameOf e) (index a 3)
    (withByte (m1.mem (frameOf e) (index a 3)) a x)), ?_, ?_⟩
  · rw [storeByte, bind_ok hload, Pages.store, hwalk]
  refine ⟨⟨owner, hmap.store hr hnt _ _⟩, h.calls, h.granted_lt, fun k hk => ?_, fun i => ?_,
    fun s hs1 hsn i => ?_, fun b g j hb hwb => ?_⟩
  · rw [tableAt_store hnt _ _ (hr.path_outside hk) le_rfl]
    exact h.shared k hk
  · exact (congrFun (store_of_frame_ne (Ne.symm hz)) i).trans (h.zeroClear i)
  · have hne : m.frames s ≠ frameOf e := fun hse => by
      have hlt : m1.calls ≤ s := hs1
      have := hs.frame_inj (hmap.calls.trans hs1) htm hsn (by omega) (hse.trans hframe.symm)
      omega
    exact (congrFun (store_of_frame_ne hne) i).trans (h.framesClear s hs1 hsn i)
  · obtain ⟨hl, -, hpathb, -, e'', -, -, htableb, hwalkb⟩ := hmap.page_of hr hb
    have hsame : walk (m1.withMem (RadixTree.store m1.mem (frameOf e) (index a 3)
        (withByte (m1.mem (frameOf e) (index a 3)) a x))) b = walk m1 b := by
      rw [walk, walk, tableAt_store hnt _ _ (hpathb ▸ hr.path_outside hl) le_rfl]
    rw [hsame] at hwb
    have hold := h.contents b g j hb hwb
    obtain ⟨rfl, rfl⟩ := Prod.mk.inj (Option.some.inj (hwb.symm.trans hwalkb))
    by_cases hab : b = a
    · subst hab
      obtain ⟨hee, -⟩ := Prod.mk.inj (Option.some.inj (hwalkb.symm.trans hwalk))
      rw [Function.update_self, hee, Machine.withMem_mem, store_same, byteOf_withByte rfl]
    · rw [Function.update_of_ne hab, ← hold, Machine.withMem_mem]
      by_cases hword : frameOf e'' = frameOf e ∧ index b 3 = index a 3
      · have hpage := hmap.page_unique hr hs hcalls hb ha htableb (hword.1 ▸ htable)
          (hword.1 ▸ hz)
        rw [hword.1, hword.2, store_same, byteOf_withByte_other]
        exact fun hbyte => hab (address_ext hpage hword.2 hbyte.symm)
      · rw [store_of_ne hword]

theorem Backed.fault {e errorCode : Word} (hrw : flags &&& mapRw ≠ 0) (ha : inRange start size a)
    (he : leaf m1 a = some e) (hlazy : e &&& pgLazy ≠ 0)
    (hcode : errorCode &&& pfProtViolation ≠ 0 ∧ errorCode &&& pfWrite ≠ 0) :
    ∃ m2 e2, pageFaultHandler a errorCode m1 = .ok () m2 ∧
      Backed m m2 start size flags n (insert (pageNo start a) granted) memory ∧
      leaf m2 a = some e2 ∧ e2 &&& pgRw ≠ 0 ∧ frameOf e2 ≠ m.zeroPage := by
  obtain ⟨owner, hmap⟩ := h.mapped
  obtain ⟨hk, -, hpath, hout, e', he', hentry, htable, hwalk⟩ := hmap.page_of hr ha
  obtain rfl : e = e' := Option.some.inj (he.symm.trans he')
  obtain ⟨rfl, hflags⟩ := hentry.of_lazy hlazy
  rw [frameOf_or_aligned hs.zeroAligned (frameOf_convertFlags flags)] at htable hwalk
  have hnot : pageNo start a ∉ granted := (h.shared _ hk).mp (hpath ▸ htable)
  have hlt : m1.calls < m.calls + n := h.calls_lt hn hk hnot
  obtain ⟨hd, pt, hpt, hview⟩ := leaf_cases he
  have hbit : m1.mem pt (slot a 3) &&& pgLazy ≠ 0 := by
    rw [and_of_view hview (by decide)]
    exact hlazy
  obtain ⟨m2, hrun, hm, hwrites, -⟩ := pageFaultHandler_grants hmap.wf hout hd hpt hcode hbit
  have hnew := view_granted (hs.frame_aligned hmap.calls hlt) hs.zeroAligned hview
  rw [← hmap.frames] at hnew
  obtain ⟨⟨owner', hmap'⟩, hcalls, htables⟩ := hmap.replace hr hs hlt hk hpath hd hflags
    ((leaf_congr m1 hpath).symm.trans he) (hmap.frames ▸ hnew) hm
  have hle : m2.calls ≤ m.calls + n := by omega
  have hframe : m.frames m1.calls ≠ m.zeroPage := hs.frame_zero hmap.calls hlt
  obtain ⟨-, -, -, -, e2, he2, hentry2, htable2, -⟩ := hmap'.page_of hr ha
  have hpriv : frameOf e2 ≠ m.zeroPage := fun hz => by
    rw [htables _ (hpath ▸ hr.path_outside hk) le_rfl, if_pos rfl, hz] at htable2
    exact hframe (Option.some.inj htable2)
  refine ⟨m2, e2, hrun, ⟨⟨owner', hmap'⟩, ?_, fun k hmem => ?_, fun k hkc => ?_, fun i => ?_,
    fun t ht htn i => ?_, fun b f i hb hwb => ?_⟩, he2, ?_, hpriv⟩
  · rw [hcalls, h.calls, Finset.card_insert_of_notMem hnot, Nat.add_assoc]
  · rcases Finset.mem_insert.mp hmem with rfl | hold
    · exact hk
    · exact h.granted_lt k hold
  · rw [htables _ (hr.path_outside hkc) le_rfl, Finset.mem_insert]
    by_cases hka : k = pageNo start a
    · rw [hka, if_pos hpath.symm, Option.some_inj]
      exact iff_of_false hframe fun hc => hc (.inl rfl)
    · have hne : indices (pageAt start k) ≠ indices a := fun he =>
        hka (hr.indices_inj hkc hk (he.trans hpath))
      rw [if_neg hne, h.shared k hkc]
      exact not_congr (or_iff_right hka).symm
  · rw [hwrites.rest _ (hmap'.toLedger.zero_notTable hs hle hzero), h.zeroClear]
  · rw [hwrites.rest _ (hmap'.toLedger.next_notTable hs ht htn), h.framesClear t (by omega) htn]
  · obtain ⟨hl, hpage, hpathb, -, eb, -, -, htableb, hwalkb⟩ := hmap'.page_of hr hb
    obtain ⟨rfl, rfl⟩ := Prod.mk.inj (Option.some.inj (hwb.symm.trans hwalkb))
    rw [hwrites.rest _ (hmap'.frame_notTable hr hs hle hb hzero htableb)]
    rw [htables _ (hpathb ▸ hr.path_outside hl) le_rfl] at htableb
    have hcan : canonical b := canonical_congr hpage (hr.canonical _ hl)
    split at htableb
    · rename_i hba
      have hwb1 : walk m1 b = some (m.zeroPage, index b 3) := by
        rw [walk, if_pos hcan, hba, htable]
        rfl
      rw [← Option.some.inj htableb, h.framesClear _ le_rfl hlt, ← h.contents b _ _ hb hwb1,
        h.zeroClear]
    · refine h.contents b _ _ hb ?_
      rw [walk, if_pos hcan, htableb]
      rfl
  · refine (hentry2.rw_cases hrw).elim (fun hc => hc.1) fun hc => ?_
    obtain ⟨rfl, -⟩ := hentry2.of_lazy hc.2
    rw [frameOf_or_aligned hs.zeroAligned (frameOf_convertFlags flags)] at hpriv
    exact absurd rfl hpriv

theorem Backed.storeAccess {errorCode : Word} (hrw : flags &&& mapRw ≠ 0)
    (ha : inRange start size a)
    (hcode : errorCode &&& pfProtViolation ≠ 0 ∧ errorCode &&& pfWrite ≠ 0) (x : Byte) :
    ∃ m2, storeAccess a x errorCode m1 = .ok () m2 ∧
      Backed m m2 start size flags n (insert (pageNo start a) granted)
        (Function.update memory a x) := by
  obtain ⟨owner, hmap⟩ := h.mapped
  obtain ⟨-, -, -, -, e, he, hentry, -, -⟩ := hmap.page_of hr ha
  have hget {m' : Machine} : (get : Kernel Machine) m' = .ok m' m' := rfl
  have hwritable {m' : Machine} {e' : Word} (he' : leaf m' a = some e') :
      writable m' a = (e' &&& pgRw != 0) := by
    rw [writable, he']
    rfl
  rcases hentry.rw_cases hrw with ⟨hbit, hpriv⟩ | ⟨hbit, hlazy⟩
  · obtain ⟨m2, hstore, hback⟩ := h.store hr hs hzero hn ha he hpriv x
    refine ⟨m2, ?_, ?_⟩
    · rw [Pages.storeAccess, bind_ok hget, hwritable he, if_pos (by simpa using hbit), hstore]
    · rw [Finset.insert_eq_of_mem ((h.granted_iff hr ha he).mpr hpriv)]
      exact hback
  · obtain ⟨m2, e2, hfault, hback, he2, hbit2, hpriv⟩ :=
      h.fault hr hs hzero hn hrw ha he hlazy hcode
    obtain ⟨m3, hstore, hback'⟩ := hback.store hr hs hzero hn ha he2 hpriv x
    refine ⟨m3, ?_, hback'⟩
    rw [Pages.storeAccess, bind_ok hget, hwritable he, if_neg (by simp [hbit]), bind_ok hfault,
      bind_ok hget, hwritable he2, if_pos (by simpa using hbit2), hstore]

theorem Backed.perform (hrw : flags &&& mapRw ≠ 0) {accesses : List Access}
    (hp : ∀ access ∈ accesses, access.Permitted start size) :
    ∃ m2, perform accesses m1 = .ok (answers accesses memory) m2 ∧
      Backed m m2 start size flags n (storedPages start accesses ∪ granted)
        (after accesses memory) := by
  induction accesses generalizing m1 memory granted with
  | nil => exact ⟨m1, rfl, by rw [storedPages, Finset.empty_union]; exact h⟩
  | cons access rest ih =>
    have hrest : ∀ access ∈ rest, access.Permitted start size :=
      fun access hmem => hp access (List.mem_cons_of_mem _ hmem)
    have hfirst := hp access List.mem_cons_self
    cases access with
    | load address =>
      obtain ⟨m2, hrun, hback⟩ := ih h hrest
      refine ⟨m2, ?_, hback⟩
      rw [Pages.perform, bind_ok (h.load hr hfirst), bind_ok hrun, answers]
      rfl
    | store address value errorCode =>
      obtain ⟨ha, hcode⟩ := hfirst
      obtain ⟨m2, hstore, hback⟩ := h.storeAccess hr hs hzero hn hrw ha hcode value
      obtain ⟨m3, hrun, hback'⟩ := ih hback hrest
      refine ⟨m3, ?_, ?_⟩
      · rw [Pages.perform, bind_ok hstore, hrun, answers]
      · rw [storedPages, Finset.insert_union, ← Finset.union_insert]
        exact hback'

end accesses

-- every page has the rights that were asked for, the zero page stays clear and is never writable,
-- and no other frame is under two pages
structure RangeSafe (m m' : Machine) (start size flags : Word) : Prop where
  zeroClear : ∀ i, m'.mem m.zeroPage i = 0
  rights : ∀ a e, inRange start size a → leaf m' a = some e →
    (e &&& pgUser ≠ 0 ↔ flags &&& mapUser ≠ 0) ∧ (e &&& pgNx = 0 ↔ flags &&& mapExe ≠ 0)
  zeroReadOnly : ∀ a e, inRange start size a → leaf m' a = some e → frameOf e = m.zeroPage →
    e &&& pgRw = 0
  unshared : ∀ a b f i j, inRange start size a → inRange start size b → walk m' a = some (f, i) →
    walk m' b = some (f, j) → f ≠ m.zeroPage → a >>> 12 = b >>> 12

theorem and_twoPow_ne {x : Word} {i : Nat} (hi : i < 64) :
    x &&& BitVec.twoPow 64 i ≠ 0 ↔ x.getLsbD i = true := by
  have hne : BitVec.twoPow 64 i ≠ 0 := fun h => by
    have := congrArg BitVec.toNat h
    rw [BitVec.toNat_twoPow_of_lt hi] at this
    exact absurd this (Nat.two_pow_pos i).ne'
  rw [BitVec.and_twoPow]
  cases x.getLsbD i with
  | false => simp
  | true => exact iff_of_true hne rfl

theorem RangeEntry.rights {m : Machine} {flags e : Word} (h : RangeEntry m flags e) :
    (e &&& pgUser ≠ 0 ↔ flags &&& mapUser ≠ 0) ∧ (e &&& pgNx = 0 ↔ flags &&& mapExe ≠ 0) := by
  have hkept := h.kept_bits
  have hbit (i : Nat) (hi : (pgUser ||| pgNx).getLsbD i = true) :
      e.getLsbD i = (convertFlags flags).getLsbD i := by
    have := congrArg (fun w => w.getLsbD i) hkept
    simpa only [BitVec.getLsbD_and, hi, Bool.and_true] using this
  have huser : e.getLsbD 2 = flags.getLsbD 2 := by
    rw [hbit 2 (by decide), convertFlags]
    split_ifs <;> simp [mapUser, mapExe, pgUser, pgNx, pgPresent, pgRw, pgLazy]
  have hnx : e.getLsbD 63 = !flags.getLsbD 63 := by
    rw [hbit 63 (by decide), convertFlags]
    split_ifs <;> simp [mapUser, mapExe, pgUser, pgNx, pgPresent, pgRw, pgLazy]
  constructor
  · rw [mapUser, show pgUser = BitVec.twoPow 64 2 by decide, and_twoPow_ne (by decide),
      and_twoPow_ne (by decide), huser]
  · rw [mapExe, ← not_iff_not, ← Ne, show pgNx = BitVec.twoPow 64 63 by decide,
      and_twoPow_ne (by decide), and_twoPow_ne (by decide), hnx]
    simp

section range
variable {m m1 : Machine} {start size flags : Word} {n : Nat} {owner : Nat → List Index}
  {granted : Finset Nat} (hr : PageRange start size) (hs : ClearSupply m n)
  (hn : (missingTables m start (pageCount size)).card + pageCount size ≤ n)
include hr hs hn

theorem RangeMapped.backed (h : RangeMapped m m1 start flags (pageCount size) owner)
    (hwrites : TableWrites m m1) (hplain : Plain m m1 start flags (pageCount size))
    (hcalls : m1.calls = m.calls + framesFor m start flags (pageCount size)) :
    Backed m m1 start size flags n
      (if flags &&& mapImmediate ≠ 0 then Finset.range (pageCount size) else ∅) fun _ => 0 := by
  have hle : m1.calls ≤ m.calls + n := by
    rw [hcalls, framesFor]
    split_ifs <;> omega
  refine ⟨⟨owner, h⟩, ?_, fun k hk => ?_, fun k hk => ?_, fun i => ?_, fun t ht htn i => ?_,
    fun a f i ha hwalk => ?_⟩
  · rw [hcalls, framesFor]
    split_ifs <;> simp
    omega
  · split_ifs at hk
    · exact Finset.mem_range.mp hk
    · exact absurd hk (Finset.notMem_empty k)
  · rw [hplain k hk]
    split_ifs with himm
    · exact iff_of_false himm fun hc => hc (Finset.mem_range.mpr hk)
    · exact iff_of_true (not_not.mp himm) (Finset.notMem_empty k)
  · rw [hwrites.rest _ (h.toLedger.zero_notTable hs.toSupply hle hs.zeroNoTable), hs.zeroClear]
  · have hc := h.calls
    have hclear := hs.framesClear (t - m.calls) (by omega) i
    rw [Nat.add_sub_cancel' (by omega)] at hclear
    rw [hwrites.rest _ (h.toLedger.next_notTable hs.toSupply ht htn), hclear]
  · obtain ⟨hk, -, hpath, -, e, -, -, htable, hwalk'⟩ := h.page_of hr ha
    obtain ⟨rfl, rfl⟩ := Prod.mk.inj (Option.some.inj (hwalk.symm.trans hwalk'))
    rw [hwrites.rest _ (h.frame_notTable hr hs.toSupply hle ha hs.zeroNoTable htable)]
    by_cases hz : frameOf e = m.zeroPage
    · rw [hz, hs.zeroClear, byteOf_zero]
    · obtain ⟨t, ht, htc, -, hframe⟩ := h.toLedger.page_frame (hpath ▸ hr.path_outside hk) le_rfl
        (new_path hr ha) htable hz
      have hclear := hs.framesClear (t - m.calls) (by omega) (index a 3)
      rw [Nat.add_sub_cancel' ht, hframe] at hclear
      rw [hclear, byteOf_zero]

theorem Backed.safe {memory : Word → Byte} (h : Backed m m1 start size flags n granted memory)
    (hrw : flags &&& mapRw ≠ 0) : RangeSafe m m1 start size flags := by
  have hle := h.calls_le hn
  obtain ⟨owner, hmap⟩ := h.mapped
  refine ⟨h.zeroClear, fun a e ha he => ?_, fun a e ha he hz => ?_, fun a b f i j ha hb hwa hwb hz => ?_⟩
  · obtain ⟨-, -, -, -, e', he', hentry, -⟩ := hmap.page_of hr ha
    obtain rfl : e = e' := Option.some.inj (he.symm.trans he')
    exact hentry.rights
  · obtain ⟨-, -, -, -, e', he', hentry, -⟩ := hmap.page_of hr ha
    obtain rfl : e = e' := Option.some.inj (he.symm.trans he')
    exact (hentry.rw_cases hrw).elim (fun hc => absurd hz hc.2) fun hc => hc.1
  · obtain ⟨-, -, -, -, ea, -, -, hta, hwa'⟩ := hmap.page_of hr ha
    obtain ⟨-, -, -, -, eb, -, -, htb, hwb'⟩ := hmap.page_of hr hb
    obtain ⟨rfl, -⟩ := Prod.mk.inj (Option.some.inj (hwa.symm.trans hwa'))
    obtain ⟨hf, -⟩ := Prod.mk.inj (Option.some.inj (hwb.symm.trans hwb'))
    exact hmap.page_unique hr hs.toSupply hle ha hb hta (hf ▸ htb) hz

omit hs hn in
theorem Backed.others {memory : Word → Byte} (h : Backed m m1 start size flags n granted memory)
    {v : Word} (hv : canonical v) (hout : index v 39 ≠ pgSelfIndex) (hin : ¬ inRange start size v) :
    leaf m1 v = leaf m v := by
  obtain ⟨owner, hmap⟩ := h.mapped
  refine hmap.otherLeaves v hout fun k hk he => hin ?_
  exact hr.inside_of hk (page_of_indices hv (hr.canonical k hk) he)

variable (hw : WellFormed m) (hrw : flags &&& mapRw ≠ 0)
include hw hrw

theorem mapRange_serves {fuel : Nat} (hfuel : pageCount size < fuel) :
    ∃ m1, mapRange fuel start size flags m = .ok () m1 ∧
      m1.calls = m.calls + framesFor m start flags (pageCount size) ∧
      ∀ accesses : List Access, (∀ access ∈ accesses, access.Permitted start size) →
        ∃ m1', perform accesses m1 = .ok (answers accesses fun _ => 0) m1' ∧
          Backed m m1' start size flags n (storedPages start accesses ∪
            if flags &&& mapImmediate ≠ 0 then Finset.range (pageCount size) else ∅)
              (after accesses fun _ => 0) := by
  have hfew : framesFor m start flags (pageCount size) ≤ n := by
    rw [framesFor]
    split_ifs <;> omega
  obtain ⟨m1, owner, hrun, h, hwrites, hcalls, hplain⟩ :=
    mapRange_writes hr hs.toSupply hfew hw hfuel
  refine ⟨m1, hrun, hcalls, fun accesses hp => ?_⟩
  exact (h.backed hr hs hn hwrites hplain hcalls).perform hr hs.toSupply hs.zeroNoTable hn hrw hp

end range

theorem RangeSafe.congr {m m' : Machine} {start size flags flags' : Word}
    (h : RangeSafe m m' start size flags) (huser : flags &&& mapUser = flags' &&& mapUser)
    (hexe : flags &&& mapExe = flags' &&& mapExe) : RangeSafe m m' start size flags' where
  zeroClear := h.zeroClear
  rights a e ha he := huser ▸ hexe ▸ h.rights a e ha he
  zeroReadOnly := h.zeroReadOnly
  unshared := h.unshared

theorem immediate_and {flags c : Word} (hc : mapImmediate &&& c = 0) :
    (flags ||| mapImmediate) &&& c = flags &&& c := by
  rw [BitVec.and_or_distrib_right, hc]
  exact BitVec.or_zero

theorem immediate_set (flags : Word) : (flags ||| mapImmediate) &&& mapImmediate ≠ 0 := by
  rw [BitVec.and_or_distrib_right, BitVec.and_self]
  exact fun h => absurd (BitVec.or_eq_zero_iff.mp h).2 (by decide)

theorem framesFor_immediate (m : Machine) (start flags : Word) (n : Nat) :
    framesFor m start (flags ||| mapImmediate) n = (missingTables m start n).card + n := by
  rw [framesFor, if_pos (immediate_set flags)]

structure RangeHeld (m m' : Machine) (start size flags : Word) : Prop
    extends RangeSafe m m' start size flags where
  others : ∀ v, canonical v → index v 39 ≠ pgSelfIndex → ¬ inRange start size v →
    leaf m' v = leaf m v

theorem twoPages_clear {f : Word} (hf : ∀ e ∈ lowEntries true, e.1 ≠ f) (i : Index) :
    twoPages.mem f i = 0 := by
  have hnone : (lowEntries true).find? (fun e => e.1 == f && e.2.1 == i) = none :=
    List.find?_eq_none.mpr fun e he => by simp [hf e he]
  change (((lowEntries true).find? fun e => e.1 == f && e.2.1 == i).map fun e => e.2.2).getD 0 = 0
  rw [hnone]
  rfl

theorem twoPages_clearSupply {n : Nat} (hn : n ≤ 3) : ClearSupply twoPages n where
  toSupply := twoPages_supply.mono hn
  framesClear t ht i := by
    have ht3 : t < 3 := by omega
    interval_cases t
    · exact twoPages_clear (f := 0x9000) (by simp [lowEntries]) i
    · exact twoPages_clear (f := 0xa000) (by simp [lowEntries]) i
    · exact twoPages_clear (f := 0xb000) (by simp [lowEntries]) i
  zeroClear i := twoPages_clear (f := 0x8000) (by simp [lowEntries]) i
  zeroNoTable := by
    rintro ⟨q, hq, hql, hf⟩
    rcases lowPages_tableAt hq hql hf with ⟨-, h⟩ | ⟨-, h⟩ | ⟨-, h⟩ | ⟨-, h⟩ <;>
      exact absurd h (by decide)

theorem lazy_range_refines (m : Machine) (hw : WellFormed m) (start size flags : Word)
    (hr : PageRange start size) (hrw : flags &&& mapRw ≠ 0)
    (hs : ClearSupply m (framesFor m start (flags ||| mapImmediate) (pageCount size)))
    (fuel : Nat) (hfuel : pageCount size < fuel) :
    ∃ m1 m2, mapRange fuel start size flags m = .ok () m1 ∧
      mapRange fuel start size (flags ||| mapImmediate) m = .ok () m2 ∧
      ∀ accesses : List Access, (∀ access ∈ accesses, access.Permitted start size) →
        ∃ m1' m2', perform accesses m1 = .ok (answers accesses fun _ => 0) m1' ∧
          perform accesses m2 = .ok (answers accesses fun _ => 0) m2' ∧
          RangeHeld m m1' start size flags ∧ RangeHeld m m2' start size flags := by
  have hn := (framesFor_immediate m start flags (pageCount size)).ge
  have hrw2 : (flags ||| mapImmediate) &&& mapRw ≠ 0 := by rwa [immediate_and (by decide)]
  obtain ⟨m1, hrun1, -, hserve1⟩ := mapRange_serves hr hs hn hw hrw hfuel
  obtain ⟨m2, hrun2, -, hserve2⟩ := mapRange_serves hr hs hn hw hrw2 hfuel
  refine ⟨m1, m2, hrun1, hrun2, fun accesses hp => ?_⟩
  obtain ⟨m1', hperform1, hback1⟩ := hserve1 accesses hp
  obtain ⟨m2', hperform2, hback2⟩ := hserve2 accesses hp
  exact ⟨m1', m2', hperform1, hperform2,
    ⟨hback1.safe hr hs hn hrw, fun v hv hout hin => hback1.others hr hv hout hin⟩,
    ⟨(hback2.safe hr hs hn hrw2).congr (immediate_and (by decide)) (immediate_and (by decide)),
      fun v hv hout hin => hback2.others hr hv hout hin⟩⟩

theorem lazy_range_refines_sample : walk twoPages 0x1000 = some (0x6000, 0) ∧ ∃ m1 m2 m1' m2',
    mapRange 3 0x1000 0x2000 mapRw twoPages = .ok () m1 ∧
      mapRange 3 0x1000 0x2000 (mapRw ||| mapImmediate) twoPages = .ok () m2 ∧
      perform [.store 0x1fff 7 3, .load 0x2fff, .store 0x2000 8 3, .load 0x1fff] m1 =
        .ok [0, 7] m1' ∧
      perform [.store 0x1fff 7 3, .load 0x2fff, .store 0x2000 8 3, .load 0x1fff] m2 =
        .ok [0, 7] m2' ∧ leaf m1' 0 = leaf twoPages 0 := by
  have hframes : framesFor twoPages 0x1000 (mapRw ||| mapImmediate) (pageCount 0x2000) = 2 := by
    decide
  have hrange : PageRange 0x1000 0x2000 := ⟨by decide, by decide, by decide⟩
  obtain ⟨m1, m2, hrun1, hrun2, hrest⟩ := lazy_range_refines twoPages twoPages_wellFormed 0x1000
    0x2000 mapRw hrange (by decide) (hframes ▸ twoPages_clearSupply (by decide)) 3 (by decide)
  obtain ⟨m1', m2', h1, h2, hheld, -⟩ :=
    hrest [.store 0x1fff 7 3, .load 0x2fff, .store 0x2000 8 3, .load 0x1fff] (fun access hmem => by
      simp only [List.mem_cons, List.not_mem_nil, or_false] at hmem
      rcases hmem with rfl | rfl | rfl | rfl
      · exact ⟨by decide, by decide, by decide⟩
      · exact show inRange 0x1000 0x2000 0x2fff by decide
      · exact ⟨by decide, by decide, by decide⟩
      · exact show inRange 0x1000 0x2000 0x1fff by decide)
  exact ⟨by decide, m1, m2, m1', m2', hrun1, hrun2, h1, h2,
    hheld.others 0 (by decide) (by decide) (by decide)⟩

theorem storedPages_lt {start size : Word} (hr : PageRange start size) {accesses : List Access}
    (hp : ∀ access ∈ accesses, access.Permitted start size) :
    storedPages start accesses ⊆ Finset.range (pageCount size) := by
  induction accesses with
  | nil => exact Finset.empty_subset _
  | cons access rest ih =>
    have hrest := ih fun access hmem => hp access (List.mem_cons_of_mem _ hmem)
    have hfirst := hp access List.mem_cons_self
    cases access with
    | load address => exact hrest
    | store address value errorCode =>
      obtain ⟨hk, -⟩ := hr.pageAt_of hfirst.1
      exact Finset.insert_subset (Finset.mem_range.mpr hk) hrest

theorem lazy_range_agrees (m : Machine) (hw : WellFormed m) (start size flags : Word)
    (hr : PageRange start size) (hrw : flags &&& mapRw ≠ 0) (hlazy : flags &&& mapImmediate = 0)
    (hs : ClearSupply m (framesFor m start (flags ||| mapImmediate) (pageCount size)))
    (fuel : Nat) (hfuel : pageCount size < fuel) :
    ∃ m1 m2, mapRange fuel start size flags m = .ok () m1 ∧
      mapRange fuel start size (flags ||| mapImmediate) m = .ok () m2 ∧
      ∀ accesses : List Access, (∀ access ∈ accesses, access.Permitted start size) →
        ∃ m1' m2', perform accesses m1 = .ok (answers accesses fun _ => 0) m1' ∧
          perform accesses m2 = .ok (answers accesses fun _ => 0) m2' ∧
          m1'.calls = m1.calls + (storedPages start accesses).card ∧
          m2.calls = m1.calls + pageCount size ∧ m2'.calls = m2.calls ∧ m1'.calls ≤ m2.calls ∧
          RangeSafe m m1' start size flags ∧ RangeSafe m m2' start size flags := by
  have hn := (framesFor_immediate m start flags (pageCount size)).ge
  have hrw2 : (flags ||| mapImmediate) &&& mapRw ≠ 0 := by rwa [immediate_and (by decide)]
  obtain ⟨m1, hrun1, hcalls1, hserve1⟩ := mapRange_serves hr hs hn hw hrw hfuel
  obtain ⟨m2, hrun2, hcalls2, hserve2⟩ := mapRange_serves hr hs hn hw hrw2 hfuel
  rw [framesFor, if_neg (not_not.mpr hlazy)] at hcalls1
  rw [framesFor_immediate] at hcalls2
  refine ⟨m1, m2, hrun1, hrun2, fun accesses hp => ?_⟩
  obtain ⟨m1', hperform1, hback1⟩ := hserve1 accesses hp
  obtain ⟨m2', hperform2, hback2⟩ := hserve2 accesses hp
  have hsub := storedPages_lt hr hp
  have hfew := Finset.card_le_card hsub
  have hpages1 := hback1.calls
  have hpages2 := hback2.calls
  rw [if_neg (not_not.mpr hlazy), Finset.union_empty] at hpages1
  rw [if_pos (immediate_set flags), Finset.union_eq_right.mpr hsub, Finset.card_range] at hpages2
  rw [Finset.card_range] at hfew
  exact ⟨m1', m2', hperform1, hperform2, by omega, by omega, by omega, by omega,
    hback1.safe hr hs hn hrw,
    (hback2.safe hr hs hn hrw2).congr (immediate_and (by decide)) (immediate_and (by decide))⟩

theorem lazy_range_agrees_sample : ∃ m1 m2 m1' m2',
    mapRange 2 0x2000 0x1000 mapRw twoPages = .ok () m1 ∧
      mapRange 2 0x2000 0x1000 (mapRw ||| mapImmediate) twoPages = .ok () m2 ∧
      perform [.load 0x2008, .store 0x2008 7 3, .load 0x2008, .load 0x2009] m1 = .ok [0, 7, 0] m1' ∧
      perform [.load 0x2008, .store 0x2008 7 3, .load 0x2008, .load 0x2009] m2 = .ok [0, 7, 0] m2' ∧
      m1'.calls = m1.calls + 1 ∧ m2.calls = m1.calls + 1 := by
  have hframes : framesFor twoPages 0x2000 (mapRw ||| mapImmediate) (pageCount 0x1000) = 1 := by decide
  obtain ⟨m1, m2, hrun1, hrun2, hrest⟩ := lazy_range_agrees twoPages twoPages_wellFormed 0x2000 0x1000
    mapRw onePage_range (by decide) (by decide) (hframes ▸ twoPages_clearSupply (by decide)) 2
    (by decide)
  obtain ⟨m1', m2', h1, h2, hlazy, himmediate, -⟩ :=
    hrest [.load 0x2008, .store 0x2008 7 3, .load 0x2008, .load 0x2009] (fun access hmem => by
      simp only [List.mem_cons, List.not_mem_nil, or_false] at hmem
      rcases hmem with rfl | rfl | rfl | rfl
      · exact show inRange 0x2000 0x1000 0x2008 by decide
      · exact ⟨by decide, by decide, by decide⟩
      · exact show inRange 0x2000 0x1000 0x2008 by decide
      · exact show inRange 0x2000 0x1000 0x2009 by decide)
  exact ⟨m1, m2, m1', m2', hrun1, hrun2, h1, h2, hlazy, himmediate⟩

end Lasagne.Pages
