import Mathlib
import Lasagne.Pages.Unmap

namespace Lasagne.Pages
open RadixTree StateRun

-- word for word what a clean from level n up to level t leaves of the memory
structure Rewritten (m m' : Machine) (v : Word) (n t : Nat) : Prop where
  freed : m'.freed = ((List.range' (t + 1) (n - t)).filterMap fun j =>
    tableAt m ((indices v).take j)) ++ m.freed
  cleared : ∀ (k : Fin 4) f, t ≤ k → k < n → tableAt m ((indices v).take k) = some f →
    m'.mem f (slot v k) = 0
  lowered : ∀ (k : Fin 4) f, k + 1 = t → tableAt m ((indices v).take k) = some f →
    m'.mem f (slot v k) = m.mem f (slot v k) - oneReference
  kept : ∀ f i, (∀ k : Fin 4, t ≤ k + 1 → k < n → tableAt m ((indices v).take k) = some f →
    i ≠ slot v k) → m'.mem f i = m.mem f i
  last : ∀ (k : Fin 4) f, t ≤ k → k < n → tableAt m ((indices v).take k) = some f →
    refcount (m.mem f (slot v k)) = 1
  shared : ∀ (k : Fin 4) f, k + 1 = t → tableAt m ((indices v).take k) = some f →
    2 ≤ refcount (m.mem f (slot v k))

theorem Rewritten.stop {m : Machine} {v f : Word} {k : Fin 4}
    (hf : tableAt m ((indices v).take k) = some f) (hr : 2 ≤ refcount (m.mem f (slot v k))) :
    Rewritten m (m.withMem (RadixTree.store m.mem f (slot v k) (m.mem f (slot v k) - oneReference)))
      v (k + 1) (k + 1) := by
  have hsame {j : Fin 4} {x : Word} (hj : j.val + 1 = k + 1)
      (hx : tableAt m ((indices v).take j) = some x) : j = k ∧ f = x := by
    obtain rfl : j = k := by omega
    exact ⟨rfl, Option.some.inj (hf.symm.trans hx)⟩
  refine ⟨?_, fun j x hj hjk => absurd hjk (by omega), fun j x hj hx => ?_, fun x i hi => ?_,
    fun j x hj hjk => absurd hjk (by omega), fun j x hj hx => ?_⟩
  · rw [Nat.sub_self]
    rfl
  · obtain ⟨rfl, rfl⟩ := hsame hj hx
    rw [Machine.withMem_mem, store_same]
  · rw [Machine.withMem_mem]
    refine store_of_ne fun ⟨hxf, hik⟩ => hi k le_rfl (by omega) ?_ hik
    rw [hxf, hf]
  · obtain ⟨rfl, rfl⟩ := hsame hj hx
    exact hr

section rewritten
variable {v : Word} (hs : index v 39 ≠ pgSelfIndex)
include hs

theorem Rewritten.succ {m m' : Machine} {f g : Word} {k : Fin 4} {t : Nat} (hk : k.val < 3)
    (ht : Tree child m.mem m.cr3 pgSelfIndex 3) (hf : tableAt m ((indices v).take k) = some f)
    (hg : tableAt m ((indices v).take (k + 1)) = some g) (htn : t ≤ k)
    (hr : refcount (m.mem f (slot v k)) = 1)
    (h : Rewritten (Machine.withMem { m with freed := g :: m.freed }
      (RadixTree.store m.mem f (slot v k) 0)) m' v k t) : Rewritten m m' v (k + 1) t := by
  have hkept {j : Nat} (hj : j ≤ k) : tableAt (Machine.withMem { m with freed := g :: m.freed }
      (RadixTree.store m.mem f (slot v k) 0)) ((indices v).take j) =
        tableAt m ((indices v).take j) :=
    prune_tableAt hs hk ht hf hj
  have hother {j : Fin 4} {x : Word} (hj : j < k) (hx : tableAt m ((indices v).take j) = some x) :
      x ≠ f :=
    table_ne hs ht hf (by omega) (by omega) (by omega) hx
  have hmem {x : Word} {i : Index} (hx : x ≠ f) : (Machine.withMem { m with freed := g :: m.freed }
      (RadixTree.store m.mem f (slot v k) 0)).mem x i = m.mem x i := by
    rw [Machine.withMem_mem, store_of_frame_ne hx]
  refine ⟨?_, fun j x hj hjk hx => ?_, fun j x hj hx => ?_, fun x i hi => ?_,
    fun j x hj hjk hx => ?_, fun j x hj hx => ?_⟩
  · rw [h.freed, show k.val + 1 - t = k - t + 1 by omega, List.range'_1_concat,
      List.filterMap_append, show t + 1 + (k.val - t) = k + 1 by omega]
    simp only [List.filterMap_cons, List.filterMap_nil, hg, List.append_assoc, List.singleton_append]
    refine congrArg (· ++ _) (List.filterMap_congr fun j hj => hkept ?_)
    have := List.mem_range'_1.mp hj
    omega
  · by_cases hlt : j < k
    · exact h.cleared j x hj hlt ((hkept (by omega)).trans hx)
    · obtain rfl : j = k := by omega
      obtain rfl : f = x := Option.some.inj (hf.symm.trans hx)
      rw [h.kept f _ fun l _ hl hl' => absurd rfl (hother hl ((hkept (by omega)).symm.trans hl')),
        Machine.withMem_mem, store_same]
  · have hx' := (hkept (j := j) (by omega)).trans hx
    rw [h.lowered j x hj hx', hmem (hother (by omega) hx)]
  · rw [h.kept x i fun j hj hjk hx => hi j hj (by omega) ((hkept (by omega)).symm.trans hx),
      Machine.withMem_mem]
    refine store_of_ne fun hat => hi k (by omega) (by omega) ?_ hat.2
    rw [hat.1, hf]
  · by_cases hlt : j < k
    · have hlast := h.last j x hj hlt ((hkept (by omega)).trans hx)
      rwa [hmem (hother hlt hx)] at hlast
    · obtain rfl : j = k := by omega
      obtain rfl : f = x := Option.some.inj (hf.symm.trans hx)
      exact hr
  · have hshared := h.shared j x hj ((hkept (by omega)).trans hx)
    rwa [hmem (hother (by omega) hx)] at hshared

theorem cleanLevels_rewrites {e : PtEntries}
    (he : ∀ k : Fin 4, k.val < 3 → e.entries k = entryOf v k) (n : Nat) (hn : n ≤ 3) {m : Machine}
    (ht : Tree child m.mem m.cr3 pgSelfIndex 3) {g : Word}
    (hg : tableAt m ((indices v).take n) = some g)
    (hr : ∀ (k : Fin 4) f, k.val < n → tableAt m ((indices v).take k) = some f →
      refcount (m.mem f (slot v k)) ≠ 0) :
    ∃ t m', t ≤ n ∧ cleanLevels e (downFrom n (Nat.le_succ_of_le hn)) m = .ok () m' ∧ Rewritten m m' v n t := by
  induction n generalizing m g with
  | zero =>
    refine ⟨0, m, le_rfl, rfl, rfl, fun k f _ hk => absurd hk (Nat.not_lt_zero _),
      fun k f hk => absurd hk (Nat.succ_ne_zero _), fun _ _ _ => rfl,
      fun k f _ hk => absurd hk (Nat.not_lt_zero _), fun k f hk => absurd hk (Nat.succ_ne_zero _)⟩
  | succ n ih =>
    obtain ⟨k, hk⟩ : ∃ k : Fin 4, k = ⟨n, by omega⟩ := ⟨_, rfl⟩
    obtain rfl : k.val = n := by rw [hk]
    obtain ⟨f, hf⟩ : ∃ f, tableAt m ((indices v).take k) = some f :=
      reach_prefix (List.take_prefix_take_left (Nat.le_succ k)) hg
    have hchild : child (m.mem f (slot v k)) = some g := (child_slot hf).trans hg
    have hpos := hr k f (Nat.lt_succ_self k) hf
    by_cases hone : refcount (m.mem f (slot v k)) = 1
    · have hkept {j : Nat} (hj : j ≤ k) := prune_tableAt hs (by omega) ht hf hj
      obtain ⟨t, m', htn, hrun, hm⟩ := ih (by omega)
        (m := Machine.withMem { m with freed := g :: m.freed }
          (RadixTree.store m.mem f (slot v k) 0))
        (prune_tree hs (by omega) ht hf) ((hkept le_rfl).trans hf) fun j x hj hx => by
          have hold : tableAt m ((indices v).take j) = some x := (hkept (by omega)).symm.trans hx
          have hne : x ≠ f := table_ne hs ht hf (by omega) (by omega) (by omega) hold
          rw [Machine.withMem_mem, store_of_frame_ne hne]
          exact hr j x (by omega) hold
      refine ⟨t, m', by omega, ?_, hm.succ hs (by omega) ht hf hg htn hone⟩
      rw [downFrom]
      exact (cleanLevels_prune ht.self (he k (by omega)) hf hchild hone).trans hrun
    · refine ⟨k + 1, _, le_rfl, ?_, Rewritten.stop hf (by omega)⟩
      rw [downFrom]
      exact cleanLevels_stop ht.self (he k (by omega)) hf hpos hone

end rewritten

-- clean_pts after the leaf entry of v is cleared: the tables of levels t + 1 to 3 go
structure CleanedExactly (m m' : Machine) (v : Word) (t : Nat) : Prop where
  wf : WellFormed m'
  occupied : Occupied m'
  freed : m'.freed = ((List.range' (t + 1) (3 - t)).filterMap fun j =>
    tableAt m ((indices v).take j)) ++ m.freed
  once : ((List.range' (t + 1) (3 - t)).filterMap fun j => tableAt m ((indices v).take j)).Nodup
  emptied : ∀ l f, 0 < l → l ≤ 3 → tableAt m ((indices v).take l) = some f →
    (t < l ↔ presentCount (m'.mem f) = 0)
  cleared : ∀ (k : Fin 4) f, t ≤ k → tableAt m ((indices v).take k) = some f →
    m'.mem f (slot v k) = 0
  lowered : ∀ (k : Fin 4) f, k + 1 = t → tableAt m ((indices v).take k) = some f →
    refcount (m'.mem f (slot v k)) + 1 = refcount (m.mem f (slot v k)) ∧
      view (m'.mem f (slot v k)) = view (m.mem f (slot v k))
  positive : ∀ (k : Fin 4) f, t ≤ k + 1 → k.val < 3 → tableAt m ((indices v).take k) = some f →
    0 < refcount (m.mem f (slot v k))
  kept : ∀ f i, (∀ k : Fin 4, t ≤ k + 1 → tableAt m ((indices v).take k) = some f →
    i ≠ slot v k) → m'.mem f i = m.mem f i
  rest : m'.cr3 = m.cr3 ∧ m'.zeroPage = m.zeroPage ∧ m'.frames = m.frames ∧ m'.calls = m.calls

def withoutLeaf (m : Machine) (pt v : Word) : Machine :=
  m.withMem (RadixTree.store m.mem pt (slot v 3) 0)

section leaf
variable {m : Machine} {v pt : Word} (hw : WellFormed m) (ho : Occupied m)
  (hs : index v 39 ≠ pgSelfIndex) (hpt : tableAt m ((indices v).take 3) = some pt)
  (hleaf : present (m.mem pt (slot v 3)) = true)
include hw hs hpt

theorem withoutLeaf_tableAt {q : List Index} (hq : Outside q) (hql : q.length ≤ 3) :
    tableAt (withoutLeaf m pt v) q = tableAt m q := by
  refine hw.tree.reach_store (outside_take hs 3) (length_take (by decide)).le hpt hq (by omega)
    fun hpre => ?_
  have := hpre.length_le
  rw [List.length_append, length_take (by decide), List.length_singleton] at this
  omega

theorem withoutLeaf_take {j : Nat} (hj : j ≤ 3) :
    tableAt (withoutLeaf m pt v) ((indices v).take j) = tableAt m ((indices v).take j) :=
  withoutLeaf_tableAt hw hs hpt (outside_take hs j) (length_take_le hj)

theorem withoutLeaf_counted : Counted child refcount (fun _ => present) (withoutLeaf m pt v).mem
    (withoutLeaf m pt v).cr3 pgSelfIndex 3 ((indices v).take 3) :=
  hw.counted.all.store_graft hw.tree (outside_concat hs 3) (length_take (by decide)).le hpt
    (Tree.grafts_bottom (length_take (by decide))) fun _ _ hlt =>
      absurd hlt (by rw [length_take (by decide)]; decide)

theorem withoutLeaf_mem {j : Nat} {f : Word} (hj : j < 3) (hf : tableAt m ((indices v).take j) = some f)
    (i : Index) : (withoutLeaf m pt v).mem f i = m.mem f i := by
  have hne : f ≠ pt :=
    table_ne (k := 3) hs hw.tree hpt (Nat.ne_of_lt hj) (by omega) (by decide) hf
  rw [withoutLeaf, Machine.withMem_mem, store_of_frame_ne hne]

include ho in
theorem withoutLeaf_occupied :
    OccupiedBut (fun _ => present) (withoutLeaf m pt v) ((indices v).take 3) := by
  intro q h hq hne hql hq3 hh
  rw [withoutLeaf_tableAt hw hs hpt hq hql] at hh
  have hhpt : h ≠ pt := by
    rintro rfl
    exact hq3 (hw.tree.unique q _ h hq (outside_take hs 3) hql (length_take (by decide)).le hh hpt)
  rw [withoutLeaf, Machine.withMem_mem, store_of_frame_ne hhpt]
  exact ho q h hq hne hql hne hh

omit hw hs hpt in
include hleaf in
theorem withoutLeaf_count : presentCount ((withoutLeaf m pt v).mem pt) + 1 = presentCount (m.mem pt) := by
  rw [presentCount_eq ((indices v).take 3), presentCount_eq ((indices v).take 3), withoutLeaf,
    Machine.withMem_mem, store_table]
  exact count_update_off hleaf (by decide)

omit hpt in
theorem path_refcount {k : Fin 4} {f g : Word} (hk : k.val < 3)
    (hf : tableAt m ((indices v).take k) = some f)
    (hg : tableAt m ((indices v).take (k + 1)) = some g) :
    refcount (m.mem f (slot v k)) = presentCount (m.mem g) :=
  hw.refcount_eq (outside_concat hs k) (length_take_lt hk) hf
    ((child_slot hf).trans hg)

end leaf

section exact
variable {m m' : Machine} {v pt : Word} {t : Nat} (hw : WellFormed m)
  (hs : index v 39 ≠ pgSelfIndex) (hpt : tableAt m ((indices v).take 3) = some pt)
include hw hs

variable (h : Rewritten (withoutLeaf m pt v) m' v 3 t)
include hpt h

theorem exact_cleared {k : Fin 4} {f : Word} (hk : t ≤ k)
    (hf : tableAt m ((indices v).take k) = some f) : m'.mem f (slot v k) = 0 := by
  have hold := (withoutLeaf_take hw hs hpt (j := k) (by omega)).trans hf
  by_cases hk3 : k.val < 3
  · exact h.cleared k f hk hk3 hold
  · obtain rfl : k = 3 := by omega
    obtain rfl : pt = f := Option.some.inj (hpt.symm.trans hf)
    rw [h.kept pt (slot v 3) fun j _ hj hj' => ?_, withoutLeaf, Machine.withMem_mem, store_same]
    have hlevel := level_unique hw.tree hs (i := j) (j := 3) (by omega) le_rfl
      ((withoutLeaf_take hw hs hpt (by omega)).symm.trans hj') hpt
    omega

theorem exact_lowered {k : Fin 4} {f : Word} (hk : k + 1 = t) (ht3 : t ≤ 3)
    (hf : tableAt m ((indices v).take k) = some f) :
    m'.mem f (slot v k) = m.mem f (slot v k) - oneReference ∧
      2 ≤ refcount (m.mem f (slot v k)) := by
  have hold := (withoutLeaf_take hw hs hpt (j := k) (by omega)).trans hf
  have hmem := withoutLeaf_mem hw hs hpt (by omega) hf (slot v k)
  have hshared := h.shared k f hk hold
  rw [hmem] at hshared
  rw [h.lowered k f hk hold, hmem]
  exact ⟨rfl, hshared⟩

theorem exact_kept {f : Word} {i : Index} (hi : ∀ k : Fin 4, t ≤ k + 1 →
    tableAt m ((indices v).take k) = some f → i ≠ slot v k) (ht3 : t ≤ 3) :
    m'.mem f i = m.mem f i := by
  rw [h.kept f i fun k hk hk3 hf => hi k hk ((withoutLeaf_take hw hs hpt (by omega)).symm.trans hf),
    withoutLeaf, Machine.withMem_mem]
  refine store_of_ne fun hat => hi 3 (ht3.trans (by decide)) ?_ hat.2
  rw [hat.1]
  exact hpt

theorem exact_last {k : Fin 4} {f : Word} (hk : t ≤ k) (hk3 : k.val < 3)
    (hf : tableAt m ((indices v).take k) = some f) : refcount (m.mem f (slot v k)) = 1 := by
  have hlast := h.last k f hk hk3 ((withoutLeaf_take hw hs hpt (by omega)).trans hf)
  rwa [withoutLeaf_mem hw hs hpt hk3 hf] at hlast

theorem exact_beside {l : Fin 4} {f : Word} {i : Index} (ht3 : t ≤ 3)
    (hf : tableAt m ((indices v).take l) = some f) (hi : i ≠ slot v l) :
    m'.mem f i = m.mem f i := by
  refine exact_kept hw hs hpt h (fun k _ hk => ?_) ht3
  obtain rfl : k = l := Fin.ext (level_unique hw.tree hs (by omega) (by omega) hk hf)
  exact hi

variable (hd : depth m v = 4) (ht3 : t ≤ 3)
include hd ht3

theorem exact_emptied {l : Fin 4} {f : Word} (hl : 0 < l.val)
    (hf : tableAt m ((indices v).take l) = some f) : t < l ↔ presentCount (m'.mem f) = 0 := by
  obtain ⟨k, hk⟩ : ∃ k : Fin 4, k.val + 1 = l := ⟨⟨l - 1, by omega⟩, by simp; omega⟩
  obtain ⟨g, hg⟩ := exists_tableAt (m := m) (a := v) (k := k.val) (by omega)
  have hcount : refcount (m.mem g (slot v k)) = presentCount (m.mem f) :=
    path_refcount hw hs (by omega) hg (hk ▸ hf)
  have hown := present_slot hd hf
  constructor
  · intro htl
    have hone : presentCount (m.mem f) = 1 :=
      hcount.symm.trans (exact_last hw hs hpt h (by omega) (by omega) hg)
    refine Nat.eq_zero_of_not_pos fun hpos => ?_
    obtain ⟨i, hi⟩ := presentCount_pos_iff.mp hpos
    by_cases hil : i = slot v l
    · rw [hil, exact_cleared hw hs hpt h htl.le hf] at hi
      exact absurd hi (by decide)
    · rw [exact_beside hw hs hpt h ht3 hf hil] at hi
      exact hil (eq_of_presentCount_one hone hi hown)
  · intro hzero
    by_contra hlt
    refine absurd hzero (Nat.pos_iff_ne_zero.mp (presentCount_pos_iff.mpr ?_))
    rcases Nat.lt_trichotomy (l + 1) t with hlow | hlast | hhigh
    · refine ⟨slot v l, ?_⟩
      rw [exact_kept hw hs hpt h (fun j hj hj' => ?_) ht3]
      · exact hown
      · have := level_unique hw.tree hs (i := j) (j := l) (by omega) (by omega) hj' hf
        omega
    · refine ⟨slot v l, ?_⟩
      rw [(exact_lowered hw hs hpt h hlast ht3 hf).1, present_congr (low_sub low_oneReference)]
      exact hown
    · -- the loop stopped at this table, which has another entry
      have hseveral := (exact_lowered hw hs hpt h (k := k) (by omega) ht3 hg).2
      rw [hcount, presentCount] at hseveral
      obtain ⟨i, hi, hne⟩ := Finset.exists_mem_ne hseveral (slot v l)
      refine ⟨i, ?_⟩
      rw [exact_beside hw hs hpt h ht3 hf hne]
      exact (Finset.mem_filter.mp hi).2

end exact

theorem cleanPts_runs {m : Machine} {v pt : Word} {e : PtEntries} (hw : WellFormed m)
    (ho : Occupied m) (hs : index v 39 ≠ pgSelfIndex) (hd : depth m v = 4)
    (hpt : tableAt m ((indices v).take 3) = some pt)
    (he : ∀ k : Fin 4, k.val < 3 → e.entries k = entryOf v k) :
    ∃ t u m', t ≤ 3 ∧ cleanPts e (withoutLeaf m pt v) = .ok () m' ∧
      Rewritten (withoutLeaf m pt v) m' v 3 t ∧
      Cleaned (fun _ => present) (withoutLeaf m pt v) m' v 3 u := by
  have hleaf := present_slot (k := 3) hd hpt
  have hcount := withoutLeaf_count (v := v) hleaf
  have htree := leaf_tree (e := 0) hw hs hpt
  have hpt' := (withoutLeaf_take hw hs hpt le_rfl).trans hpt
  have hrefs (k : Fin 4) (f : Word) (hk : k.val < 3)
      (hf : tableAt (withoutLeaf m pt v) ((indices v).take k) = some f) :
      ∃ g, tableAt m ((indices v).take (k + 1)) = some g ∧
        refcount ((withoutLeaf m pt v).mem f (slot v k)) = presentCount (m.mem g) := by
    have hold := (withoutLeaf_take hw hs hpt (by omega)).symm.trans hf
    obtain ⟨g, hg⟩ := exists_tableAt (m := m) (a := v) (k := k.val + 1) (by omega)
    refine ⟨g, hg, ?_⟩
    rw [withoutLeaf_mem hw hs hpt hk hold]
    exact path_refcount hw hs hk hold hg
  obtain ⟨t, m', ht, hrun, hrewritten⟩ := cleanLevels_rewrites hs he 3 le_rfl htree hpt'
    fun k f hk hf hz => by
      obtain ⟨g, hg, hr⟩ := hrefs k f hk hf
      refine ho _ g (outside_take hs (k + 1)) ?_ ?_ ?_ hg (hr.symm.trans hz)
      · rw [indices_take_succ]
        exact List.concat_ne_nil _ _
      · rw [length_take (by omega)]
        omega
      · rw [indices_take_succ]
        exact List.concat_ne_nil _ _
  obtain ⟨u, m'', -, -, hrun', hcleaned⟩ := @cleanLevels_cleans (fun _ => present) v
    (fun _ _ _ => rfl) hs e he 3 le_rfl (withoutLeaf m pt v) _ htree
    (withoutLeaf_counted hw hs hpt) (withoutLeaf_occupied hw ho hs hpt) pt hpt' (fun k f hk hf => by
      obtain ⟨g, hg, hr⟩ := hrefs k f (by omega) hf
      rw [hk] at hg
      obtain rfl : pt = g := Option.some.inj (hpt.symm.trans hg)
      exact hr.trans hcount.symm) fun _ => rfl
  obtain rfl : m' = m'' := by
    have hsame := hrun.symm.trans hrun'
    injection hsame
  exact ⟨t, u, m', ht, hrun, hrewritten, hcleaned⟩

theorem cleanPts_exact (m : Machine) (hw : WellFormed m) (ho : Occupied m) (v pt : Word)
    (hs : index v 39 ≠ pgSelfIndex) (hpt : tableAt m ((indices v).take 3) = some pt)
    (hleaf : present (m.mem pt (slot v 3)) = true) (e : PtEntries) (he : ptes v m = .ok e m) :
    ∃ t m', t ≤ 3 ∧ cleanPts e (withoutLeaf m pt v) = .ok () m' ∧ CleanedExactly m m' v t := by
  have hd : depth m v = 4 := by
    have hnext := congrArg Option.isSome (child_slot (k := 3) hpt)
    exact le_antisymm depth_le ((tableAt_isSome_iff (k := 4) le_rfl).mp
      (hnext.symm.trans (child_isSome.trans hleaf)))
  have hentries (k : Fin 4) (_ : k.val < 3) : e.entries k = entryOf v k := by
    obtain ⟨rfl, -⟩ : e = _ ∧ m = m := by simpa using he.symm.trans (ptes_eq hw.tree.self)
    rfl
  obtain ⟨t, u, m', ht, hrun, hr, hc⟩ := cleanPts_runs hw ho hs hd hpt hentries
  refine ⟨t, m', ht, hrun, ?_⟩
  exact {
    wf := ⟨hc.tree, hc.counted⟩
    occupied := hc.occupied
    freed := by
      rw [hr.freed]
      refine congrArg (· ++ m.freed) (List.filterMap_congr fun j hj => ?_)
      have := List.mem_range'_1.mp hj
      exact withoutLeaf_take hw hs hpt (by omega)
    once := pathTables_nodup hw.tree hs (by omega)
    emptied := fun l f hl hl3 hf =>
      exact_emptied hw hs hpt hr hd ht (l := ⟨l, by omega⟩) hl hf
    cleared := fun k f hk hf => exact_cleared hw hs hpt hr hk hf
    lowered := fun k f hk hf => by
      obtain ⟨heq, hrefs⟩ := exact_lowered hw hs hpt hr hk ht hf
      rw [heq]
      exact ⟨refcount_sub (by omega), view_sub (by omega)⟩
    positive := fun k f hk hk3 hf => by
      rcases Nat.lt_or_ge k t with hlt | hge
      · have := (exact_lowered hw hs hpt hr (by omega) ht hf).2
        omega
      · rw [exact_last hw hs hpt hr hge hk3 hf]
        exact Nat.one_pos
    kept := fun f i hi => exact_kept hw hs hpt hr hi ht
    rest := ⟨hc.cr3, hc.zeroPage, hc.frames, hc.calls⟩ }

theorem cleanPts_exact_sample : ∃ e t m', ptes 0 twoPages = .ok e twoPages ∧ t ≤ 3 ∧
    cleanPts e (withoutLeaf twoPages 0x4000 0) = .ok () m' ∧ CleanedExactly twoPages m' 0 t := by
  have he := ptes_eq (a := 0) twoPages_wellFormed.tree.self
  obtain ⟨t, m', ht, hrun, hexact⟩ := cleanPts_exact twoPages twoPages_wellFormed twoPages_occupied
    0 0x4000 (by decide) (by decide) (by decide) _ he
  exact ⟨_, t, m', he, ht, hrun, hexact⟩

end Lasagne.Pages
