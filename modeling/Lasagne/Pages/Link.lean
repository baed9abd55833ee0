import Mathlib
import Lasagne.Pages.WellFormed

namespace Lasagne.Pages
open RadixTree StateRun
open X86 (canonical)

section page
variable (a : Word)

def pageOf (address : Word) : Word := address &&& ~~~0xFFF

theorem pageOf_word (i : Fin 512) :
    pageOf a + BitVec.ofNat 64 (8 * i) = pageOf a ||| BitVec.ofNat 64 (8 * i) := by
  have hi := i.isLt
  refine BitVec.add_eq_or_of_and_eq_zero _ _ (BitVec.eq_of_getLsbD_eq fun j hj => ?_)
  rw [BitVec.getLsbD_and, pageOf, BitVec.getLsbD_and, BitVec.getLsbD_ofNat, BitVec.getLsbD_zero]
  by_cases h12 : j < 12
  · have hmask : (~~~0xFFF : Word).getLsbD j = false := by interval_cases j <;> decide
    rw [hmask, Bool.and_false, Bool.false_and]
  · have hbit : (8 * i.val).testBit j = false :=
      Nat.testBit_lt_two_pow (show 8 * i.val < 2 ^ j from
        lt_of_lt_of_le (by omega) (Nat.pow_le_pow_right (by decide) (show 12 ≤ j by omega)))
    rw [hbit, Bool.and_false, Bool.and_false]

theorem getLsbD_pageOf_word (i : Fin 512) {j : Nat} (hj : 12 ≤ j) :
    (pageOf a + BitVec.ofNat 64 (8 * i)).getLsbD j = a.getLsbD j := by
  have hi := i.isLt
  have hbit : (8 * i.val).testBit j = false :=
    Nat.testBit_lt_two_pow (show 8 * i.val < 2 ^ j from
      lt_of_lt_of_le (by omega) (Nat.pow_le_pow_right (by decide) hj))
  rw [pageOf_word, BitVec.getLsbD_or, BitVec.getLsbD_ofNat, hbit, Bool.and_false, Bool.or_false,
    pageOf, BitVec.getLsbD_and]
  by_cases h64 : j < 64
  · have hmask : (~~~0xFFF : Word).getLsbD j = true := by interval_cases j <;> decide
    rw [hmask, Bool.and_true]
  · rw [BitVec.getLsbD_of_ge _ _ (by omega), Bool.false_and]

theorem index_pageOf_word (i : Fin 512) {s : Nat} (hs : 12 ≤ s) :
    index (pageOf a + BitVec.ofNat 64 (8 * i)) s = index a s := by
  refine BitVec.eq_of_getLsbD_eq fun j hj => ?_
  rw [index, index, BitVec.getLsbD_extractLsb', BitVec.getLsbD_extractLsb',
    getLsbD_pageOf_word a i (by omega)]

theorem word_pageOf_word (i : Fin 512) :
    index (pageOf a + BitVec.ofNat 64 (8 * i)) 3 = BitVec.ofNat 9 i := by
  refine BitVec.eq_of_getLsbD_eq fun j hj => ?_
  have hmask : (~~~0xFFF : Word).getLsbD (3 + j) = false := by interval_cases j <;> decide
  rw [pageOf_word, index, BitVec.getLsbD_extractLsb', BitVec.getLsbD_or, pageOf, BitVec.getLsbD_and,
    hmask, BitVec.getLsbD_ofNat, BitVec.getLsbD_ofNat, Nat.mul_comm,
    show i.val * 8 = i.val <<< 3 by rw [Nat.shiftLeft_eq], Nat.testBit_shiftLeft]
  simp [hj]
  omega

theorem canonical_pageOf_word (h : canonical a) (i : Fin 512) :
    canonical (pageOf a + BitVec.ofNat 64 (8 * i)) := by
  refine (canonical_iff _).mpr fun j h48 hj => ?_
  rw [getLsbD_pageOf_word a i (by omega), getLsbD_pageOf_word a i (by decide)]
  exact (canonical_iff a).mp h j h48 hj

end page

theorem walk_pageOf_word {m : Machine} {a : Word}
    (hself : child (m.mem m.cr3 pgSelfIndex) = some m.cr3) (k : Fin 4) (i : Fin 512) :
    walk m (pageOf (entryOf a k) + BitVec.ofNat 64 (8 * i)) =
      (tableAt m ((indices a).take k)).map fun f => (f, BitVec.ofNat 9 i) := by
  have hindices : indices (pageOf (entryOf a k) + BitVec.ofNat 64 (8 * i)) =
      indices (entryOf a k) := by
    simp only [indices, index_pageOf_word _ i (show 12 ≤ 39 by decide),
      index_pageOf_word _ i (show 12 ≤ 30 by decide),
      index_pageOf_word _ i (show 12 ≤ 21 by decide), index_pageOf_word _ i (le_refl 12)]
  rw [walk, if_pos (canonical_pageOf_word _ (canonical_entryOf a k) i), hindices, indices_entryOf,
    tableAt, reach_replicate hself, word_pageOf_word]
  rfl

theorem forM_clear {m : Machine} {a n : Word} {k : Fin 4} {mem : (Index → Word) → Word → Index → Word}
    (hself : ∀ t, child (mem t m.cr3 pgSelfIndex) = some m.cr3)
    (hreach : ∀ t, reach child (mem t) m.cr3 ((indices a).take k) = some n)
    (hstore : ∀ t i, RadixTree.store (mem t) n i 0 = mem (Function.update t i 0))
    (is : List (Fin 512)) (t : Index → Word) :
    (is.forM fun i => store (pageOf (entryOf a k) + BitVec.ofNat 64 (8 * i)) 0) (m.withMem (mem t)) =
      .ok () (m.withMem (mem (is.foldl (fun t (i : Fin 512) => Function.update t (BitVec.ofNat 9 i) 0) t))) := by
  induction is generalizing t with
  | nil => rfl
  | cons i is ih =>
    have hs : store (pageOf (entryOf a k) + BitVec.ofNat 64 (8 * i)) 0 (m.withMem (mem t)) =
        .ok () (m.withMem (mem (Function.update t (BitVec.ofNat 9 i) 0))) := by
      rw [store, walk_pageOf_word (m := m.withMem (mem t)) (hself t), tableAt]
      simp only [Machine.withMem_mem, Machine.withMem_cr3, hreach t, Option.map_some, hstore]
      rfl
    exact (bind_ok hs).trans (ih _)

theorem clear_all (t : Index → Word) :
    (List.finRange 512).foldl (fun t (i : Fin 512) => Function.update t (BitVec.ofNat 9 i) 0) t = fun _ => 0 := by
  have hfold (is : List (Fin 512)) (t : Index → Word) (j : Index) :
      is.foldl (fun t (i : Fin 512) => Function.update t (BitVec.ofNat 9 i) 0) t j =
        if ∃ i ∈ is, BitVec.ofNat 9 i = j then 0 else t j := by
    induction is generalizing t with
    | nil => simp
    | cons i is ih =>
      rw [List.foldl_cons, ih]
      by_cases htail : ∃ i ∈ is, BitVec.ofNat 9 i = j
      · rw [if_pos htail, if_pos (htail.imp fun _ h => ⟨List.mem_cons_of_mem _ h.1, h.2⟩)]
      · rw [if_neg htail]
        by_cases hij : BitVec.ofNat 9 i = j
        · subst hij
          rw [Function.update_self, if_pos ⟨i, List.mem_cons_self, rfl⟩]
        · rw [Function.update_of_ne (Ne.symm hij), if_neg]
          rintro ⟨i', hi', rfl⟩
          rcases List.mem_cons.mp hi' with rfl | hi'
          · exact hij rfl
          · exact htail ⟨i', hi', rfl⟩
  funext j
  rw [hfold, if_pos]
  exact ⟨⟨j.toNat, j.isLt⟩, List.mem_finRange _, by simp⟩

def tableEntry (frame : Word) : Word := frame ||| pgPresent ||| pgRw ||| pgUser

section tableEntry
variable {n : Word} (hn : Aligned n)
include hn

theorem child_tableEntry : child (tableEntry n) = some n := by
  have hx : tableEntry n = n ||| (pgPresent ||| pgRw ||| pgUser) := by
    simp only [tableEntry, BitVec.or_assoc]
  rw [hx]
  exact child_or (frameOf_aligned hn) (by decide) (by decide)

theorem refcount_tableEntry : refcount (tableEntry n) = 0 := by
  have hlow : (pgPresent ||| pgRw ||| pgUser) &&& pgRefcountMask = 0 := by decide
  have hand : tableEntry n &&& pgRefcountMask = 0 := by
    rw [tableEntry, BitVec.or_assoc, BitVec.or_assoc, ← BitVec.or_assoc pgPresent,
      BitVec.and_or_distrib_right, frame_refcount_zero (frameOf_aligned hn), hlow]
    exact BitVec.or_zero
  rw [refcount, hand]
  rfl

end tableEntry

section link
variable {mem : Word → Index → Word} {root f n : Word} {path : List Index} {i : Index}
  (h : Tree child mem root pgSelfIndex 3) (ho : Outside (path ++ [i])) (hl : path.length < 3)
  (hf : reach child mem root path = some f) (hn : Aligned n)
  (hfresh : ∀ q, Outside q → q.length ≤ 3 → reach child mem root q ≠ some n)

def linked (mem : Word → Index → Word) (f n : Word) (i : Index) (t : Index → Word) :
    Word → Index → Word := RadixTree.store (Function.update mem n t) f i (tableEntry n)

include hfresh

theorem linked_grafts (hn : Aligned n) : Tree.Grafts child (Function.update mem n fun _ => 0) root
    pgSelfIndex 3 path (tableEntry n) where
  fresh k q hk _ hq hql := by
    obtain rfl : n = k := Option.some.inj ((child_tableEntry hn).symm.trans hk)
    rw [Tree.reach_fill hfresh hq (by omega)]
    exact hfresh q hq hql
  empty k j hk _ := by
    obtain rfl : n = k := Option.some.inj ((child_tableEntry hn).symm.trans hk)
    rw [Function.update_self]
    decide

include ho hl hf

theorem ne_fresh : f ≠ n := fun he => hfresh path ho.of_concat (by omega) (he ▸ hf)

theorem fill_reach (t : Index → Word) :
    reach child (Function.update mem n t) root path = some f :=
  (Tree.reach_fill hfresh ho.of_concat (by omega)).trans hf

theorem linked_store (t : Index → Word) (j : Index) :
    RadixTree.store (linked mem f n i t) n j 0 = linked mem f n i (Function.update t j 0) := by
  have hfn := ne_fresh ho hl hf hfresh
  rw [linked, store_comm hfn, linked]
  congr 1
  rw [RadixTree.store, Function.update_idem, Function.update_self]

include h

theorem linked_self (t : Index → Word) :
    child (linked mem f n i t root pgSelfIndex) = some root :=
  (h.fill hfresh).self_store ho (by omega) (fill_reach ho hl hf hfresh t)

theorem linked_beside {q : List Index} (hq : Outside q) (hql : q.length ≤ 4)
    (hpq : ¬ path ++ [i] <+: q) (t : Index → Word) :
    reach child (linked mem f n i t) root q = reach child mem root q := by
  rw [linked, (h.fill hfresh).reach_store ho.of_concat (by omega) (fill_reach ho hl hf hfresh t) hq
    hql hpq, Tree.reach_fill hfresh hq hql]

include hn

theorem linked_reach (t : Index → Word) :
    reach child (linked mem f n i t) root (path ++ [i]) = some n := by
  rw [linked, (h.fill hfresh).reach_store_self ho.of_concat (by omega)
    (fill_reach ho hl hf hfresh t), child_tableEntry hn]

theorem linked_tree : Tree child (linked mem f n i fun _ => 0) root pgSelfIndex 3 :=
  (h.fill hfresh).store_graft ho (by omega) (fill_reach ho hl hf hfresh _)
    (linked_grafts hfresh hn)

theorem linked_counted
    (hc : Counted child refcount (fun _ => present) mem root pgSelfIndex 3 []) :
    Counted child refcount (fun _ => present) (linked mem f n i fun _ => 0) root pgSelfIndex 3
      path := by
  refine (hc.fill hfresh).all.store_graft (h.fill hfresh) ho (by omega)
    (fill_reach ho hl hf hfresh _) (linked_grafts hfresh hn) fun k hk _ => ?_
  obtain rfl : n = k := Option.some.inj ((child_tableEntry hn).symm.trans hk)
  rw [refcount_tableEntry hn, Function.update_self]
  exact (count_eq_zero_iff.mpr fun _ => by decide).symm

theorem linked_look (hold : child (mem f i) = none) {q : List Index} {j : Index} (hq : Outside q)
    (hql : q.length ≤ 3) :
    look child view (linked mem f n i fun _ => 0) root q j =
      if q = path ∧ j = i then view (tableEntry n) else look child view mem root q j := by
  have hfn := ne_fresh ho hl hf hfresh
  rw [linked, look_graft (h.fill hfresh) ho.of_concat (by omega) (fill_reach ho hl hf hfresh _)
    (linked_grafts hfresh hn) (fun _ => by rwa [Function.update_of_ne hfn])
    (fun y hy => view_eq_none.mpr (child_eq_none.mp hy)) hq hql, look_fill hfresh hq hql]

end link

def IsTable (m : Machine) (f : Word) : Prop :=
  ∃ q, Outside q ∧ q.length ≤ 3 ∧ tableAt m q = some f

-- m' still has the tables of m, and only tables were written
structure TableWrites (m m' : Machine) : Prop where
  tables : ∀ q f, Outside q → q.length ≤ 3 → tableAt m q = some f → tableAt m' q = some f
  rest : ∀ f, ¬ IsTable m' f → m'.mem f = m.mem f

theorem TableWrites.refl (m : Machine) : TableWrites m m :=
  ⟨fun _ _ _ _ hf => hf, fun _ _ => rfl⟩

theorem TableWrites.trans {m m' m'' : Machine} (h : TableWrites m m') (h' : TableWrites m' m'') :
    TableWrites m m'' where
  tables q f hq hql hf := h'.tables q f hq hql (h.tables q f hq hql hf)
  rest f hf := by
    refine (h'.rest f hf).trans (h.rest f ?_)
    rintro ⟨q, hq, hql, hfq⟩
    exact hf ⟨q, hq, hql, h'.tables q f hq hql hfq⟩

section tableWrites
variable {m m' : Machine} {path : List Index} {f n x : Word} {i : Index} (hq : Outside path)
  (hql : path.length ≤ 3) (hf : tableAt m path = some f) (hcr3 : m'.cr3 = m.cr3)
include hq hql hf hcr3

theorem tableWrites_counter (hmem : m'.mem = RadixTree.store m.mem f i x)
    (hx : child x = child (m.mem f i)) : TableWrites m m' := by
  have hsame (q : List Index) : tableAt m' q = tableAt m q := by
    rw [tableAt, hmem, hcr3, reach_store_same_next hx]
    rfl
  refine ⟨fun q g _ _ hg => (hsame q).trans hg, fun g hg => ?_⟩
  have hgf : g ≠ f := fun he => hg ⟨path, hq, hql, (hsame path).trans (he ▸ hf)⟩
  rw [hmem, store_of_frame_ne hgf]

theorem tableWrites_leaf (ht : Tree child m.mem m.cr3 pgSelfIndex 3) (hl : path.length = 3)
    (hmem : m'.mem = RadixTree.store m.mem f i x) : TableWrites m m' := by
  have hsame {q : List Index} (hq' : Outside q) (hql' : q.length ≤ 3) : tableAt m' q = tableAt m q := by
    rw [tableAt, hmem, hcr3, ht.reach_store hq hql hf hq' (by omega)]
    · rfl
    · intro hpre
      have := hpre.length_le
      rw [List.length_append, hl, List.length_singleton] at this
      omega
  refine ⟨fun q g hq' hql' hg => (hsame hq' hql').trans hg, fun g hg => ?_⟩
  have hgf : g ≠ f := fun he => hg ⟨path, hq, hql, (hsame hq hql).trans (he ▸ hf)⟩
  rw [hmem, store_of_frame_ne hgf]

omit hq hql in
theorem tableWrites_link (ht : Tree child m.mem m.cr3 pgSelfIndex 3) (ho : Outside (path ++ [i]))
    (hl : path.length < 3) (hn : Aligned n)
    (hfresh : ∀ q, Outside q → q.length ≤ 3 → tableAt m q ≠ some n)
    (hold : child (m.mem f i) = none) (hmem : m'.mem = linked m.mem f n i fun _ => 0) :
    TableWrites m m' := by
  have hsame {q : List Index} {g : Word} (hq : Outside q) (hql : q.length ≤ 3)
      (hg : tableAt m q = some g) : tableAt m' q = some g := by
    rw [tableAt, hmem, hcr3, linked_beside ht ho hl hf hfresh hq (by omega)]
    · exact hg
    · rintro ⟨t, rfl⟩
      rw [tableAt, reach_append, reach_concat_of_some hf, hold] at hg
      exact absurd hg (by simp)
  have hnew : tableAt m' (path ++ [i]) = some n := by
    rw [tableAt, hmem, hcr3]
    exact linked_reach ht ho hl hf hn hfresh _
  refine ⟨fun q g hq hql hg => hsame hq hql hg, fun g hg => ?_⟩
  have hgf : g ≠ f := fun he =>
    hg ⟨path, ho.of_concat, hl.le, hsame ho.of_concat hl.le (he ▸ hf)⟩
  have hgn : g ≠ n := fun he =>
    hg ⟨path ++ [i], ho, by rw [List.length_append, List.length_singleton]; omega, he ▸ hnew⟩
  rw [hmem, linked, store_of_frame_ne hgf, Function.update_of_ne hgn]

end tableWrites

theorem raise_parent {m : Machine} {a f f' : Word} {k : Fin 4} {mem : Word → Index → Word}
    (hw : WellFormed m) (hs : index a 39 ≠ pgSelfIndex) (hk : k.val < 3)
    (hf' : tableAt m ((indices a).take k) = some f')
    (hf : tableAt m ((indices a).take (k + 1)) = some f)
    (ht : Tree child mem m.cr3 pgSelfIndex 3)
    (hc : Counted child refcount (fun _ => present) mem m.cr3 pgSelfIndex 3
      ((indices a).take (k + 1)))
    (hreach : reach child mem m.cr3 ((indices a).take k) = some f')
    (hsame : mem f' (slot a k) = m.mem f' (slot a k))
    (hcount : presentCount (mem f) = presentCount (m.mem f) + 1) :
    Tree child (RadixTree.store mem f' (slot a k) (mem f' (slot a k) + oneReference)) m.cr3
        pgSelfIndex 3 ∧
      Counted child refcount (fun _ => present)
        (RadixTree.store mem f' (slot a k) (mem f' (slot a k) + oneReference)) m.cr3
        pgSelfIndex 3 [] ∧
      ∀ q j, look child view
        (RadixTree.store mem f' (slot a k) (mem f' (slot a k) + oneReference)) m.cr3 q j =
          look child view mem m.cr3 q j := by
  have ho := outside_concat hs k
  have hlen : ((indices a).take k).length < 3 := by rwa [length_take (by omega)]
  have hchild : child (m.mem f' (slot a k)) = some f := (child_slot hf').trans hf
  have hrefs : refcount (mem f' (slot a k)) + 1 = presentCount (mem f) := by
    rw [hsame, hcount, hw.refcount_eq ho hlen hf' hchild]
  rw [indices_take_succ] at hc
  have hraise := fun q j => raise_counter (q := q) (j := j) ht hc ho hlen hreach
    (hsame ▸ hchild) hrefs
  exact ⟨(hraise [] 0).1, (hraise [] 0).2.1, fun q j => (hraise q j).2.2⟩

def Machine.granted (m : Machine) : Machine :=
  { m with
    calls := m.calls + 1
    installed := tableEntry (m.frames m.calls) :: m.installed }

section ensureLevel
variable {m : Machine} {v : Word} {k : Fin 3} (hw : WellFormed m) (hs : index v 39 ≠ pgSelfIndex)
  (hd : depth m v = k) (hn : Aligned (m.frames m.calls))
  (hfresh : ∀ q, Outside q → q.length ≤ 3 → tableAt m q ≠ some (m.frames m.calls))

include hw hs hn hfresh

theorem ensureLevel_links {f : Word} {mask : Nat} (hmask : mask &&& 1 <<< k.val = 0)
    (hf : tableAt m ((indices v).take k) = some f) :
    ensureLevel ⟨entryOf v, mask⟩ k m =
      when (k > 0) (increaseCounter (entryOf v (k.castSucc - 1)))
        (m.granted.withMem (linked m.mem f (m.frames m.calls) (slot v k.castSucc) fun _ => 0)) := by
  have ho := outside_concat hs k.castSucc
  have hlen : ((indices v).take k).length < 3 := length_take_lt k.isLt
  have hstart : RadixTree.store m.mem f (slot v k.castSucc) (tableEntry (m.frames m.calls)) =
      linked m.mem f (m.frames m.calls) (slot v k.castSucc) (m.mem (m.frames m.calls)) := by
    rw [linked, Function.update_eq_self]
  have hinstall : install (entryOf v k.castSucc) (tableEntry (m.frames m.calls))
      { m with calls := m.calls + 1 } = .ok () (m.granted.withMem
        (linked m.mem f (m.frames m.calls) (slot v k.castSucc) (m.mem (m.frames m.calls)))) := by
    rw [install, bind_ok (store_entryOf (m := { m with calls := m.calls + 1 })
      (k := k.castSucc) (f := f) hw.tree.self hf), hstart]
    rfl
  have hclear := forM_clear (m := m.granted) (a := v) (k := k.succ)
    (fun t => linked_self hw.tree ho hlen hf hfresh t)
    (fun t => by
      rw [show (k.succ : Fin 4).val = k.castSucc.val + 1 from rfl, indices_take_succ]
      exact linked_reach hw.tree ho hlen hf hn hfresh t)
    (fun t i => linked_store ho hlen hf hfresh t i) (List.finRange 512) (m.mem (m.frames m.calls))
  rw [clear_all] at hclear
  rw [ensureLevel, if_neg (by simpa using hmask)]
  exact (bind_ok rfl).trans ((bind_ok hinstall).trans ((bind_ok rfl).trans (bind_ok hclear)))

include hd

theorem ensureLevel_new {mask : Nat} (hmask : mask &&& 1 <<< k.val = 0) :
    ∃ mem, ensureLevel ⟨entryOf v, mask⟩ k m = .ok () (m.granted.withMem mem) ∧
      Tree child mem m.cr3 pgSelfIndex 3 ∧
      Counted child refcount (fun _ => present) mem m.cr3 pgSelfIndex 3 [] ∧
      (∀ q j, Outside q → q.length ≤ 3 → look child view mem m.cr3 q j =
        if q = (indices v).take k ∧ j = slot v k.castSucc then
          view (tableEntry (m.frames m.calls)) else seen m q j) ∧
      TableWrites m (m.granted.withMem mem) := by
  obtain ⟨f, hf⟩ := exists_tableAt (m := m) (a := v) hd.ge
  have ho := outside_concat hs k.castSucc
  have hlen : ((indices v).take k).length < 3 := length_take_lt k.isLt
  have hold : child (m.mem f (slot v k.castSucc)) = none := by
    rw [child_slot hf, Option.eq_none_iff_forall_not_mem]
    intro g hg
    have hle := (tableAt_isSome_iff (m := m) (a := v) (k := k + 1) (by omega)).mp
      (Option.isSome_iff_exists.mpr ⟨g, hg⟩)
    omega
  have ht := linked_tree hw.tree ho hlen hf hn hfresh
  have hc := linked_counted hw.tree ho hlen hf hn hfresh hw.counted
  have hlook := fun q j hq hql =>
    linked_look (q := q) (j := j) hw.tree ho hlen hf hn hfresh hold hq hql
  have hwrites : TableWrites m (m.granted.withMem
      (linked m.mem f (m.frames m.calls) (slot v k.castSucc) fun _ => 0)) :=
    tableWrites_link hf rfl hw.tree ho hlen hn hfresh hold rfl
  rw [ensureLevel_links hw hs hn hfresh hmask hf]
  by_cases h0 : k = 0
  · subst h0
    exact ⟨_, rfl, ht, hc, hlook, hwrites⟩
  · have hpos : 0 < k.val := Nat.pos_of_ne_zero fun h => h0 (Fin.ext h)
    obtain ⟨k', hk'⟩ : ∃ k' : Fin 4, k' = k.castSucc - 1 := ⟨_, rfl⟩
    have hval : k'.val + 1 = k.val := by
      rw [hk', Fin.val_sub_one_of_ne_zero (fun h => h0 (Fin.castSucc_injective _ h))]
      change k.val - 1 + 1 = k.val
      omega
    obtain ⟨f', hf'⟩ := exists_tableAt (m := m) (a := v) (k := k') (by omega)
    have hbeside : reach child (linked m.mem f (m.frames m.calls) (slot v k.castSucc) fun _ => 0)
        m.cr3 ((indices v).take k') = some f' := by
      rw [linked_beside hw.tree ho hlen hf hfresh (outside_take hs _)
        (by rw [length_take (by omega)]; omega)]
      · exact hf'
      · intro hpre
        have := hpre.length_le
        rw [List.length_append, length_take (by omega), length_take (by omega)] at this
        change k.val + 1 ≤ k'.val at this
        omega
    have hff' : f' ≠ f := by
      rintro rfl
      have hlevel := level_unique hw.tree hs (by omega) (by omega) hf' hf
      omega
    have hfn := ne_fresh ho hlen hf hfresh
    have hfn' : f' ≠ m.frames m.calls := fun he =>
      hfresh _ (outside_take hs k') (length_take_le (by omega)) (he ▸ hf')
    rw [when, if_pos (Fin.pos_iff_ne_zero.mpr h0), ← hk',
      increaseCounter_entryOf (m := m.granted.withMem _) ht.self hbeside]
    obtain ⟨ht', hc', hlook'⟩ := raise_parent hw hs (by omega) hf' (by rwa [hval]) ht
      (by rwa [hval]) hbeside
      (by rw [linked, store_of_frame_ne hff', Function.update_of_ne hfn'])
      (by
        rw [linked, store_table, Function.update_of_ne hfn]
        exact presentCount_update_on (child_eq_none.mp hold)
          (child_eq_some.mp (child_tableEntry hn)).1)
    refine ⟨_, rfl, ht', hc', fun q j hq hql => (hlook' q j).trans (hlook q j hq hql), ?_⟩
    exact hwrites.trans (tableWrites_counter (outside_take hs k') (length_take_le (by omega)) hbeside
      rfl rfl (child_congr (low_add low_oneReference)))

end ensureLevel

structure FreshFrames (m : Machine) (count : Nat) : Prop where
  aligned : ∀ t < count, Aligned (m.frames (m.calls + t))
  nonzero : ∀ t < count, m.frames (m.calls + t) ≠ 0
  distinct : ∀ s t, s < t → t < count → m.frames (m.calls + s) ≠ m.frames (m.calls + t)
  unused : ∀ t < count, ∀ q, Outside q → q.length ≤ 3 → tableAt m q ≠ some (m.frames (m.calls + t))

-- m' has new tables on levels d + 1 to k of the path of v, and is otherwise m
structure Linked (m m' : Machine) (v : Word) (d k : Nat) : Prop where
  wf : WellFormed m'
  cr3 : m'.cr3 = m.cr3
  zeroPage : m'.zeroPage = m.zeroPage
  frames : m'.frames = m.frames
  freed : m'.freed = m.freed
  calls : m'.calls = m.calls + (k - d)
  seen : ∀ q j, Outside q → q.length ≤ 3 → seen m' q j =
    if d ≤ q.length ∧ q.length < k ∧ q ++ [j] = (indices v).take (q.length + 1) then
      view (tableEntry (m.frames (m.calls + (q.length - d)))) else Pages.seen m q j

theorem Linked.refl {m : Machine} {v : Word} {d : Nat} (hw : WellFormed m) : Linked m m v d d where
  wf := hw
  cr3 := rfl
  zeroPage := rfl
  frames := rfl
  freed := rfl
  calls := by omega
  seen q j _ _ := by
    rw [if_neg]
    omega

theorem view_tableEntry {n : Word} (hn : Aligned n) :
    ∃ e, view (tableEntry n) = some e ∧ frameOf e = n := by
  have hchild := child_tableEntry hn
  refine ⟨_, view_of_present (child_eq_some.mp hchild).1, ?_⟩
  have := frameOf_view (e := tableEntry n)
  rw [view_of_present (child_eq_some.mp hchild).1, hchild] at this
  simpa using this

section Linked
variable {m m' : Machine} {v : Word} {d k : Nat} (h : Linked m m' v d k)
  (hs : index v 39 ≠ pgSelfIndex) (hd : depth m v = d) (hdk : d ≤ k) (hk : k ≤ 3 ∨ k = d)
  (hf : FreshFrames m (3 - d))
include h

theorem Linked.seen_path (hs : index v 39 ≠ pgSelfIndex) (j : Fin 4) :
    Pages.seen m' ((indices v).take j) (slot v j) = if d ≤ j ∧ j < k then
      view (tableEntry (m.frames (m.calls + (j - d)))) else
        Pages.seen m ((indices v).take j) (slot v j) := by
  have hlen : ((indices v).take j).length = j := length_take (by omega)
  rw [h.seen _ _ (outside_take hs j) (by omega), hlen, ← indices_take_succ]
  simp

include hs hd hdk hk hf

theorem Linked.depth_eq : depth m' v = k := by
  have hd4 : d ≤ 4 := hd ▸ depth_le
  refine depth_of_seen (by omega) fun j => ?_
  rw [h.seen_path hs]
  by_cases hj : d ≤ j ∧ j < k
  · rw [if_pos hj]
    obtain ⟨e, he, -⟩ := view_tableEntry (hf.aligned (j - d) (by omega))
    simp [he, hj.2]
  · rw [if_neg hj, seen_isSome_iff, hd]
    omega

omit hs hd hdk hk in
theorem Linked.tableAt_cases {q : List Index} {g : Word} (hq : Outside q) (hql : q.length ≤ 3)
    (hg : tableAt m' q = some g) : tableAt m q = some g ∨
      q = (indices v).take q.length ∧ d < q.length ∧ q.length ≤ k ∧
        g = m.frames (m.calls + (q.length - 1 - d)) := by
  cases q using List.reverseRecOn with
  | nil =>
    left
    rw [← hg, tableAt, tableAt, h.cr3]
    rfl
  | append_singleton q j =>
    have hlen : (q ++ [j]).length = q.length + 1 := by simp
    rw [hlen] at hql
    rw [tableAt_concat, h.seen q j hq.of_concat (by omega)] at hg
    by_cases hj : d ≤ q.length ∧ q.length < k ∧ q ++ [j] = (indices v).take (q.length + 1)
    · right
      obtain ⟨e, he, hfe⟩ := view_tableEntry (hf.aligned (q.length - d) (by omega))
      rw [if_pos hj, he] at hg
      obtain rfl : frameOf e = g := by simpa using hg
      rw [hlen]
      exact ⟨hj.2.2, by omega, by omega, by rw [hfe]; rfl⟩
    · left
      rwa [if_neg hj, ← tableAt_concat] at hg

theorem Linked.step (hk3 : k < 3) (hmask : (2 ^ d - 1) &&& 1 <<< k = 0) :
    ∃ m'', ensureLevel ⟨entryOf v, 2 ^ d - 1⟩ ⟨k, hk3⟩ m' = .ok () m'' ∧
      Linked m m'' v d (k + 1) ∧ TableWrites m' m'' := by
  have hdepth := h.depth_eq hs hd hdk hk hf
  have hframe : m'.frames m'.calls = m.frames (m.calls + (k - d)) := by rw [h.frames, h.calls]
  obtain ⟨mem, hrun, ht, hc, hlook, hwrites⟩ := ensureLevel_new (k := ⟨k, hk3⟩) h.wf hs hdepth
    (hframe ▸ hf.aligned (k - d) (by omega)) (fun q hq hql hg => by
      rw [hframe] at hg
      rcases h.tableAt_cases hf hq hql hg with hg | ⟨-, hlt, hle, hg⟩
      · exact hf.unused (k - d) (by omega) q hq hql hg
      · exact hf.distinct (q.length - 1 - d) (k - d) (by omega) (by omega) hg.symm) hmask
  refine ⟨_, hrun, ⟨⟨ht, hc⟩, h.cr3, h.zeroPage, h.frames, h.freed, ?_, fun q j hq hql => ?_⟩,
    hwrites⟩
  · change m'.calls + 1 = _
    rw [h.calls]
    omega
  · have hpath : q = (indices v).take k ∧ j = slot v (Fin.castSucc ⟨k, hk3⟩) ↔
        q.length = k ∧ q ++ [j] = (indices v).take (q.length + 1) := by
      constructor
      · rintro ⟨rfl, rfl⟩
        have hlen : ((indices v).take k).length = k := length_take (by omega)
        rw [hlen]
        exact ⟨rfl, (indices_take_succ v ⟨k, by omega⟩).symm⟩
      · rintro ⟨hlen, he⟩
        rw [hlen, show k + 1 = (Fin.castSucc ⟨k, hk3⟩ : Fin 4).val + 1 from rfl,
          indices_take_succ] at he
        simpa using List.append_inj' he rfl
    refine (hlook q j hq hql).trans ?_
    by_cases hqk : q = (indices v).take k ∧ j = slot v (Fin.castSucc ⟨k, hk3⟩)
    · have hq' := hpath.mp hqk
      rw [if_pos hqk, if_pos ⟨by omega, by omega, hq'.2⟩, hframe, hq'.1]
    · rw [if_neg hqk, h.seen q j hq hql]
      by_cases hold : d ≤ q.length ∧ q.length < k ∧ q ++ [j] = (indices v).take (q.length + 1)
      · rw [if_pos hold, if_pos ⟨hold.1, by omega, hold.2.2⟩]
      · rw [if_neg hold, if_neg fun hnew => hold ⟨hnew.1, ?_, hnew.2.2⟩]
        have : q.length ≠ k := fun he => hqk (hpath.mpr ⟨he, hnew.2.2⟩)
        omega

end Linked

section ensurePtExists
variable {m : Machine} {v : Word} {d : Nat} (hw : WellFormed m) (hs : index v 39 ≠ pgSelfIndex)
  (hd : depth m v = d) (hf : FreshFrames m (3 - d))
include hs hd hf

theorem ensureLevel_max {m' : Machine} (k : Fin 3) (h : Linked m m' v d (max d k)) :
    ∃ m'', ensureLevel ⟨entryOf v, 2 ^ d - 1⟩ k m' = .ok () m'' ∧
      Linked m m'' v d (max d (k + 1)) ∧ TableWrites m' m'' := by
  by_cases hk : k.val < d
  · refine ⟨m', ?_, by rwa [show max d (k.val + 1) = max d k.val by omega], .refl m'⟩
    rw [ensureLevel, if_pos (mask_level.mpr hk)]
    rfl
  · rw [show max d k.val = k.val by omega] at h
    rw [show max d (k.val + 1) = k.val + 1 by omega]
    have hmask : (2 ^ d - 1) &&& 1 <<< k.val = 0 := by
      by_contra hne
      exact hk (mask_level.mp hne)
    exact h.step hs hd (by omega) (by omega) hf k.isLt hmask

include hw

theorem ensurePtExists_links : ∃ m', ensurePtExists ⟨entryOf v, 2 ^ d - 1⟩ m = .ok () m' ∧
    Linked m m' v d (max d 3) ∧ TableWrites m m' := by
  have h : Linked m m v d (max d (0 : Fin 3).val) := by
    rw [show max d (0 : Fin 3).val = d from Nat.max_zero d]
    exact Linked.refl hw
  obtain ⟨m1, hrun1, h1, hw1⟩ := ensureLevel_max hs hd hf 0 h
  obtain ⟨m2, hrun2, h2, hw2⟩ := ensureLevel_max hs hd hf 1 h1
  obtain ⟨m3, hrun3, h3, hw3⟩ := ensureLevel_max hs hd hf 2 h2
  exact ⟨m3, (bind_ok hrun1).trans ((bind_ok hrun2).trans ((bind_ok hrun3).trans rfl)), h3,
    hw1.trans (hw2.trans hw3)⟩

end ensurePtExists

end Lasagne.Pages
