import Mathlib
import Lasagne.Pages.WellFormed

namespace Lasagne.Pages
open RadixTree StateRun

-- every table but the root and the one at path e has a live entry
def OccupiedBut (live : List Index → Word → Bool) (m : Machine) (e : List Index) : Prop :=
  ∀ q f, Outside q → q ≠ [] → q.length ≤ 3 → q ≠ e → tableAt m q = some f →
    count live q (m.mem f) ≠ 0

-- m' is m with the tables of levels t + 1 to n on the way to v taken out and freed
structure Cleaned (live : List Index → Word → Bool) (m m' : Machine) (v : Word) (n t : Nat) :
    Prop where
  tree : Tree child m'.mem m'.cr3 pgSelfIndex 3
  counted : Counted child refcount live m'.mem m'.cr3 pgSelfIndex 3 []
  occupied : OccupiedBut live m' []
  cr3 : m'.cr3 = m.cr3
  zeroPage : m'.zeroPage = m.zeroPage
  frames : m'.frames = m.frames
  calls : m'.calls = m.calls
  freed : m'.freed = ((List.range' (t + 1) (n - t)).filterMap fun j =>
    tableAt m ((indices v).take j)) ++ m.freed
  gone : ∀ q j, Outside q → q.length ≤ 3 → t < n → (indices v).take (t + 1) <+: q ++ [j] →
    seen m' q j = none
  stays : ∀ q j, Outside q → q.length ≤ 3 → (t < n → ¬ (indices v).take (t + 1) <+: q ++ [j]) →
    seen m' q j = seen m q j
  alone : ∀ l f, t < l → l < n → tableAt m ((indices v).take l) = some f →
    count live ((indices v).take l) (m.mem f) = 1

def downFrom : (n : Nat) → n ≤ 4 → List (Fin 4)
  | 0, _ => []
  | n + 1, h => ⟨n, h⟩ :: downFrom n (Nat.le_of_succ_le h)

section execution
variable {m : Machine} {v f g : Word} {e : PtEntries} {k : Fin 4} {is : List (Fin 4)}
  (hself : child (m.mem m.cr3 pgSelfIndex) = some m.cr3) (he : e.entries k = entryOf v k)
  (hf : tableAt m ((indices v).take k) = some f) (hg : child (m.mem f (slot v k)) = some g)
include hself he hf

theorem cleanLevels_stop (hr : refcount (m.mem f (slot v k)) ≠ 0)
    (hr1 : refcount (m.mem f (slot v k)) ≠ 1) : cleanLevels e (k :: is) m = .ok () (m.withMem
      (RadixTree.store m.mem f (slot v k) (m.mem f (slot v k) - oneReference))) := by
  have hsub := refcount_sub hr
  have hcount : refcount (m.mem f (slot v k) - oneReference) ≠ 0 := by omega
  rw [cleanLevels, he, bind_ok (decreaseCounter_entryOf hself hf), if_pos hcount]
  rfl

include hg

theorem cleanLevels_prune (hr : refcount (m.mem f (slot v k)) = 1) :
    cleanLevels e (k :: is) m = cleanLevels e is (Machine.withMem { m with freed := g :: m.freed }
      (RadixTree.store m.mem f (slot v k) 0)) := by
  have hsub := refcount_sub (e := m.mem f (slot v k)) (by omega)
  have hcount : refcount (m.mem f (slot v k) - oneReference) = 0 := by omega
  have hnext : child (m.mem f (slot v k) - oneReference) = child (m.mem f (slot v k)) :=
    child_congr (low_sub low_oneReference)
  obtain ⟨m1, hm1⟩ : ∃ m1, m1 = m.withMem
      (RadixTree.store m.mem f (slot v k) (m.mem f (slot v k) - oneReference)) := ⟨_, rfl⟩
  have hself1 : child (m1.mem m1.cr3 pgSelfIndex) = some m1.cr3 := by
    rw [hm1]
    exact (next_store_same_next hnext).trans hself
  have hf1 : tableAt m1 ((indices v).take k) = some f := by
    rw [hm1]
    exact (reach_store_same_next hnext m.cr3 _).trans hf
  have hframe : m1.mem f (slot v k) &&& physAddrMask = g := by
    have : child (m1.mem f (slot v k)) = some g := by
      rw [hm1, Machine.withMem_mem, store_same, hnext, hg]
    exact (child_eq_some.mp this).2
  have hfree : freeFrame (m1.mem f (slot v k) &&& physAddrMask) m1 =
      .ok () { m1 with freed := g :: m1.freed } := by
    rw [hframe]
    rfl
  rw [cleanLevels, he, bind_ok (decreaseCounter_entryOf hself hf), if_neg (not_not.mpr hcount), ← hm1,
    bind_ok (load_entryOf hself1 hf1), bind_ok hfree,
    bind_ok (store_entryOf (m := { m1 with freed := g :: m1.freed }) (k := k) (f := f) hself1 hf1), hm1]
  refine congrArg (cleanLevels e is) ?_
  simp only [Machine.withMem, store_store]

end execution

section level
variable {live : List Index → Word → Bool} {m : Machine} {v f g : Word} {k : Fin 4}
  (hlive : ∀ q x, q.length ≤ 3 → live q x = present x) (hs : index v 39 ≠ pgSelfIndex)
  (hk : k.val < 3) (ht : Tree child m.mem m.cr3 pgSelfIndex 3)
  (hc : Counted child refcount live m.mem m.cr3 pgSelfIndex 3 ((indices v).take (k + 1)))
  (ho : OccupiedBut live m ((indices v).take (k + 1)))
  (hf : tableAt m ((indices v).take k) = some f) (hg : child (m.mem f (slot v k)) = some g)

theorem child_zero : child 0 = none := by decide

include hlive hk hg in
theorem prune_count : count live ((indices v).take k) (RadixTree.store m.mem f (slot v k) 0 f) + 1 =
    count live ((indices v).take k) (m.mem f) := by
  have hlen : ((indices v).take k ++ [slot v k]).length ≤ 3 := by
    rw [← indices_take_succ, length_take (by omega)]
    omega
  rw [store_table]
  refine count_update_off ?_ ?_
  · rw [hlive _ _ hlen]
    exact (child_eq_some.mp hg).1
  · rw [hlive _ _ hlen]
    decide

include hs ht hf

theorem table_ne {j : Nat} {h : Word} (hjk : j ≠ k) (hj : j ≤ 3) (hk : k.val ≤ 3)
    (hh : tableAt m ((indices v).take j) = some h) : h ≠ f := by
  rintro rfl
  exact hjk (level_unique ht hs hj hk hh hf)

include hk

theorem prune_tree : Tree child (RadixTree.store m.mem f (slot v k) 0) m.cr3 pgSelfIndex 3 :=
  ht.store_graft (outside_concat hs k) (length_take_le (by omega)) hf
    (Tree.grafts_none child_zero)

theorem prune_seen {q : List Index} {j : Index} (hq : Outside q) (hql : q.length ≤ 3) :
    look child view (RadixTree.store m.mem f (slot v k) 0) m.cr3 q j = none ∧
        (indices v).take (k + 1) <+: q ++ [j] ∨
      look child view (RadixTree.store m.mem f (slot v k) 0) m.cr3 q j = seen m q j ∧
        ¬ (indices v).take (k + 1) <+: q ++ [j] := by
  rw [indices_take_succ]
  exact look_prune ht (outside_take hs k) (length_take_le (by omega)) hf child_zero
    (view_eq_none.mpr (by decide)) hq hql

theorem prune_tableAt {j : Nat} (hj : j ≤ k) :
    reach child (RadixTree.store m.mem f (slot v k) 0) m.cr3 ((indices v).take j) =
      tableAt m ((indices v).take j) := by
  refine ht.reach_store (outside_take hs k) (length_take_le (by omega)) hf
    (outside_take hs j) (by rw [length_take (by omega)]; omega) fun hpre => ?_
  have := hpre.length_le
  rw [List.length_append, length_take (by omega), length_take (by omega)] at this
  change k.val + 1 ≤ j at this
  omega

include hc in
theorem prune_counted : Counted child refcount live (RadixTree.store m.mem f (slot v k) 0) m.cr3
    pgSelfIndex 3 ((indices v).take k) := by
  rw [indices_take_succ] at hc
  exact hc.store_graft ht (outside_concat hs k) (length_take_le (by omega)) hf
    (Tree.grafts_none child_zero) fun n hn => absurd hn (by rw [child_zero]; simp)

include ho in
theorem prune_occupied : OccupiedBut live (m.withMem (RadixTree.store m.mem f (slot v k) 0))
    ((indices v).take k) := by
  intro q h hq hne hql hqk hh
  have hlen : ((indices v).take k).length ≤ 3 := length_take_le hk.le
  rcases ht.reach_store_cases (outside_take hs k) hlen hf (Tree.grafts_none child_zero) hq
    (by omega) hh with ⟨-, hn⟩ | ⟨hpre, hold⟩
  · rw [child_zero] at hn
    exact absurd hn (by simp)
  · have hhf : h ≠ f := by
      rintro rfl
      exact hqk (ht.unique q _ h hq (outside_take hs k) hql hlen hold hf)
    rw [Machine.withMem_mem, store_of_frame_ne hhf]
    refine ho q h hq hne hql (fun he => hpre ?_) hold
    rw [he, indices_take_succ]

include hlive hg

variable {r : Nat} (hr : refcount (m.mem f (slot v k)) = r + 1) (hr0 : r ≠ 0)
  (hrc : r = count live ((indices v).take (k + 1)) (m.mem g))
include hc ho hr hr0 hrc

theorem stop_cleaned : Cleaned live m (m.withMem
    (RadixTree.store m.mem f (slot v k) (m.mem f (slot v k) - oneReference))) v (k + 1) (k + 1) := by
  have hlow : (m.mem f (slot v k) - oneReference).setWidth 52 = (m.mem f (slot v k)).setWidth 52 :=
    low_sub low_oneReference
  have hsub := refcount_sub (e := m.mem f (slot v k)) (by omega)
  have hlen : ((indices v).take k).length < 3 := by rwa [length_take (by omega)]
  have hsame : live ((indices v).take k ++ [slot v k]) (m.mem f (slot v k) - oneReference) =
      live ((indices v).take k ++ [slot v k]) (m.mem f (slot v k)) := by
    have hl : ((indices v).take k ++ [slot v k]).length ≤ 3 := by simp; omega
    rw [hlive _ _ hl, hlive _ _ hl, present_congr hlow]
  rw [indices_take_succ] at hc hrc
  refine {
    tree := ht.store_same_next (child_congr hlow)
    counted := hc.store_refs ht (outside_concat hs k) hlen hf hg ((child_congr hlow).trans hg)
      (by omega) hsame
    occupied := fun q h hq hne hql _ hh => ?_
    cr3 := rfl
    zeroPage := rfl
    frames := rfl
    calls := rfl
    freed := by simp [Machine.withMem]
    gone := fun _ _ _ _ hle => absurd hle (by omega)
    stays := fun q j _ _ _ => look_same (child_congr hlow) (view_sub (by omega))
    alone := fun l _ hl1 hl2 => absurd hl1 (by omega) }
  have hold : tableAt m q = some h := (reach_store_same_next (child_congr hlow) _ _).symm.trans hh
  by_cases hhf : h = f
  · subst hhf
    obtain rfl : q = (indices v).take k := ht.unique q _ h hq (outside_take hs k) hql hlen.le hold hf
    rw [Machine.withMem_mem, store_table, count_update_same hsame]
    refine ho _ h hq hne hql (fun he => ?_) hold
    have := congrArg List.length he
    rw [length_take (by omega), length_take (by omega)] at this
    omega
  · rw [Machine.withMem_mem, store_of_frame_ne hhf]
    by_cases hqk : q = (indices v).take (k + 1)
    · have hgh : g = h := by
        have hself : tableAt m ((indices v).take (k + 1)) = some g := by rw [← child_slot hf, hg]
        rw [hqk] at hold
        exact Option.some.inj (hself.symm.trans hold)
      rw [hqk, ← hgh, indices_take_succ, ← hrc]
      exact hr0
    · exact ho q h hq hne hql hqk hold

end level

section cleanLevels
variable {live : List Index → Word → Bool} {v : Word}
  (hlive : ∀ q x, q.length ≤ 3 → live q x = present x) (hs : index v 39 ≠ pgSelfIndex)
include hs

theorem Cleaned.succ {m m' : Machine} {f g : Word} {n t : Nat} (hn : n < 3)
    (ht : Tree child m.mem m.cr3 pgSelfIndex 3) (hf : tableAt m ((indices v).take n) = some f)
    (hg : tableAt m ((indices v).take (n + 1)) = some g) (htn : t ≤ n)
    (hcount : t < n → count live ((indices v).take n) (m.mem f) = 1)
    (h : Cleaned live (Machine.withMem { m with freed := g :: m.freed }
      (RadixTree.store m.mem f (slot v ⟨n, by omega⟩) 0)) m' v n t) :
    Cleaned live m m' v (n + 1) t := by
  have hk : (⟨n, by omega⟩ : Fin 4).val < 3 := hn
  have hkept {j : Nat} (hj : j ≤ n) : tableAt (Machine.withMem { m with freed := g :: m.freed }
      (RadixTree.store m.mem f (slot v ⟨n, by omega⟩) 0)) ((indices v).take j) =
        tableAt m ((indices v).take j) :=
    prune_tableAt (k := ⟨n, by omega⟩) hs hk ht hf hj
  have hprune := fun q j hq hql =>
    prune_seen (k := ⟨n, by omega⟩) (q := q) (j := j) hs hk ht hf hq hql
  refine { h with
    freed := ?_
    gone := fun q j hq hql _ hpre => ?_
    stays := fun q j hq hql hpre => ?_
    alone := fun l k hl1 hl2 hlk => ?_ }
  · rw [h.freed, show n + 1 - t = n - t + 1 by omega, List.range'_1_concat, List.filterMap_append,
      show t + 1 + (n - t) = n + 1 by omega]
    simp only [List.filterMap_cons, List.filterMap_nil, hg, List.append_assoc, List.singleton_append]
    refine congrArg (· ++ _) (List.filterMap_congr fun j hj => hkept ?_)
    have := List.mem_range'_1.mp hj
    omega
  · by_cases hlt : t < n
    · exact h.gone q j hq hql hlt hpre
    · rw [h.stays q j hq hql fun hlt' => absurd hlt' hlt]
      obtain rfl : t = n := by omega
      exact (hprune q j hq hql).elim (fun hp => hp.1) fun hp => absurd hpre hp.2
  · rw [h.stays q j hq hql fun _ => hpre (by omega)]
    refine (hprune q j hq hql).elim (fun hp => absurd ?_ (hpre (by omega))) fun hp => hp.1
    exact (List.take_prefix_take_left (show t + 1 ≤ n + 1 by omega)).trans hp.2
  · by_cases hln : l = n
    · subst hln
      obtain rfl : f = k := Option.some.inj (hf.symm.trans hlk)
      exact hcount hl1
    · have hkf : k ≠ f := table_ne (k := ⟨n, by omega⟩) hs ht hf hln (by omega) hk.le hlk
      have := h.alone l k hl1 (by omega) ((hkept (by omega)).trans hlk)
      rwa [Machine.withMem_mem, store_of_frame_ne hkf] at this

include hlive

theorem cleanLevels_cleans {e : PtEntries} (he : ∀ k : Fin 4, k.val < 3 → e.entries k = entryOf v k)
    (n : Nat) (hn : n ≤ 3) {m : Machine} {r : Nat} (ht : Tree child m.mem m.cr3 pgSelfIndex 3)
    (hc : Counted child refcount live m.mem m.cr3 pgSelfIndex 3 ((indices v).take n))
    (ho : OccupiedBut live m ((indices v).take n)) {g : Word}
    (hg : tableAt m ((indices v).take n) = some g)
    (hr : ∀ (k : Fin 4) f, k.val + 1 = n → tableAt m ((indices v).take k) = some f →
      refcount (m.mem f (slot v k)) = r + 1)
    (hrc : r ≠ 0 → r = count live ((indices v).take n) (m.mem g)) :
    ∃ t m', t ≤ n ∧ (0 < n → (t < n ↔ r = 0)) ∧
      cleanLevels e (downFrom n (by omega)) m = .ok () m' ∧ Cleaned live m m' v n t := by
  induction n generalizing m r g with
  | zero =>
    refine ⟨0, m, le_rfl, fun h => absurd h (lt_irrefl 0), rfl, ?_⟩
    exact {
      tree := ht
      counted := hc
      occupied := ho
      cr3 := rfl
      zeroPage := rfl
      frames := rfl
      calls := rfl
      freed := rfl
      gone := fun _ _ _ _ h => absurd h (lt_irrefl 0)
      stays := fun _ _ _ _ _ => rfl
      alone := fun _ _ _ h => absurd h (Nat.not_lt_zero _) }
  | succ n ih =>
    obtain ⟨k, hk⟩ : ∃ k : Fin 4, k = ⟨n, by omega⟩ := ⟨_, rfl⟩
    have hkn : k.val = n := by rw [hk]
    have hk3 : k.val < 3 := by omega
    obtain ⟨f, hf⟩ : ∃ f, tableAt m ((indices v).take k) = some f :=
      reach_prefix (List.take_prefix_take_left (show k.val ≤ n + 1 by omega)) hg
    have hchild : child (m.mem f (slot v k)) = some g := by
      rw [child_slot hf, hkn, hg]
    have hrk := hr k f (by omega) hf
    rw [← hkn] at hc ho
    by_cases hr0 : r = 0
    · subst hr0
      have hcount := prune_count hlive hk3 hchild
      have hfirst := prune_tableAt hs hk3 ht hf le_rfl
      obtain ⟨t, m', htn, hzero, hrun, hm⟩ := ih (by omega)
        (m := Machine.withMem { m with freed := g :: m.freed }
          (RadixTree.store m.mem f (slot v k) 0))
        (prune_tree hs hk3 ht hf) (hkn ▸ prune_counted hs hk3 ht hc hf)
        (hkn ▸ prune_occupied hs hk3 ht ho hf) (hkn ▸ hfirst.trans hf)
        (fun k' f' hk' hf' => by
          have hold : tableAt m ((indices v).take k') = some f' :=
            (prune_tableAt hs hk3 ht hf (by omega)).symm.trans hf'
          have hf'f : f' ≠ f := table_ne hs ht hf (by omega) (by omega) (by omega) hold
          have hparent : child (m.mem f' (slot v k')) = some f := by
            rw [child_slot hold, hk', ← hkn, hf]
          have hcounted := hc ((indices v).take k') (slot v k') f' f (outside_concat hs k')
            (length_take_lt (by omega)) (fun he => by
              have := congrArg List.length he
              rw [List.length_append, length_take (by omega), length_take (by omega)] at this
              change k'.val + 1 = _ at this
              omega) hold hparent
          rw [← indices_take_succ, hk', ← hkn] at hcounted
          rw [Machine.withMem_mem, store_of_frame_ne hf'f, hcounted, ← hcount])
        (fun _ => by rw [Machine.withMem_mem, hkn])
      refine ⟨t, m', by omega, fun _ => by omega, ?_, ?_⟩
      · rw [downFrom, ← hk, cleanLevels_prune ht.self (he k hk3) hf hchild hrk]
        exact hrun
      · rw [hkn] at hf hcount
        refine Cleaned.succ hs (by omega) ht hf hg htn (fun hlt => ?_) (hk ▸ hm)
        have hleft := (hzero (by omega)).mp hlt
        rw [hkn] at hleft
        omega
    · refine ⟨n + 1, _, le_rfl, fun _ => by omega, ?_, hkn ▸
        stop_cleaned hlive hs hk3 ht hc ho hf hchild hrk hr0 (hkn ▸ hrc hr0)⟩
      rw [downFrom, ← hk]
      exact cleanLevels_stop ht.self (he k hk3) hf (by omega) (by omega)

end cleanLevels

section tables
variable {live : List Index → Word → Bool} {m m' : Machine} {v : Word} {n t : Nat}
  (h : Cleaned live m m' v n t) {q : List Index} (hq : Outside q) (hql : q.length ≤ 4)
include h hq hql

theorem Cleaned.tableAt_gone (htn : t < n) (hpre : (indices v).take (t + 1) <+: q) :
    tableAt m' q = none := by
  cases q using List.reverseRecOn with
  | nil => exact absurd (List.prefix_nil.mp hpre) (by simp [indices])
  | append_singleton q j =>
    rw [tableAt_concat, h.gone q j hq.of_concat (by simp at hql; omega) htn hpre]
    rfl

theorem Cleaned.tableAt_stays (hpre : t < n → ¬ (indices v).take (t + 1) <+: q) :
    tableAt m' q = tableAt m q := by
  cases q using List.reverseRecOn with
  | nil =>
    rw [tableAt, tableAt, h.cr3]
    rfl
  | append_singleton q j =>
    rw [tableAt_concat, tableAt_concat, h.stays q j hq.of_concat (by simp at hql; omega) hpre]

end tables

end Lasagne.Pages
