import Mathlib
import Lasagne.Pages.Clean
import Lasagne.Pages.Map

namespace Lasagne.Pages
open RadixTree StateRun
open X86 (canonical)

def Occupied (m : Machine) : Prop := OccupiedBut (fun _ => present) m []

structure RemovesOnly (m : Machine) (v : Word) (physical : Word) (m' : Machine) : Prop where
  returned : walk m v = some (physical, index v 3)
  unmapped : walk m' v = none
  others : ∀ w, canonical w → index w 39 ≠ pgSelfIndex → w >>> 12 ≠ v >>> 12 →
    walk m' w = walk m w ∧ walkEntries m' w = walkEntries m w
  wf : WellFormed m'
  occupied : Occupied m'
  freed : ∃ tables, m'.freed = tables ++ m.freed ∧ tables.Nodup ∧ ∀ f, f ∈ tables ↔
    (∃ q, Outside q ∧ q.length ≤ 3 ∧ tableAt m q = some f) ∧
      ∀ q, Outside q → q.length ≤ 3 → tableAt m' q ≠ some f

section path
variable {m : Machine} {v : Word} {t n : Nat} (hd : depth m v = 4) (hn : n ≤ 4)
  (halone : ∀ l f, t < l → l < n → tableAt m ((indices v).take l) = some f →
    presentCount (m.mem f) = 1)

theorem eq_of_presentCount_one {table : Index → Word} {i j : Index}
    (h : presentCount table = 1) (hi : present (table i) = true) (hj : present (table j) = true) :
    i = j :=
  Finset.card_le_one.mp h.le i (Finset.mem_filter.mpr ⟨Finset.mem_univ i, hi⟩) j
    (Finset.mem_filter.mpr ⟨Finset.mem_univ j, hj⟩)

theorem present_slot (hd : depth m v = 4) {k : Fin 4} {f : Word}
    (hf : tableAt m ((indices v).take k) = some f) : present (m.mem f (slot v k)) = true := by
  rw [← child_isSome, child_slot hf, tableAt_isSome_iff (by omega), hd]
  omega

include hd hn halone

theorem path_of_alone {q : List Index} {f : Word} (hql : q.length ≤ n)
    (hf : tableAt m q = some f) (hpre : (indices v).take (t + 1) <+: q) :
    q = (indices v).take q.length := by
  induction q using List.reverseRecOn generalizing f with
  | nil => rfl
  | append_singleton q j ih =>
    have hlen : (q ++ [j]).length = q.length + 1 := by simp
    rw [hlen] at hql
    rcases prefix_concat_cases hpre with he | hpre
    · exact List.prefix_iff_eq_take.mp (he ▸ List.take_prefix _ _)
    · obtain ⟨g, hg, hj⟩ := Option.bind_eq_some_iff.mp (reach_concat.symm.trans hf)
      have hq := ih (by omega) hg hpre
      have hlt : t < q.length := by
        have := hpre.length_le
        rw [List.length_take] at this
        have hle : (indices v).length = 4 := rfl
        omega
      obtain ⟨k, hk⟩ : ∃ k : Fin 4, k.val = q.length := ⟨⟨q.length, by omega⟩, rfl⟩
      rw [hq] at hg
      have hslot : j = slot v k := eq_of_presentCount_one (halone q.length g hlt (by omega) hg)
        (child_eq_some.mp hj).1 (present_slot hd (hk ▸ hg))
      rw [hlen, ← hk, indices_take_succ, hk, ← hq, hslot]

end path

section levels
variable {m : Machine} {v : Word} (ht : Tree child m.mem m.cr3 pgSelfIndex 3)
  (hs : index v 39 ≠ pgSelfIndex)
include ht hs

theorem pathTables_nodup {a n : Nat} (han : a + n ≤ 4) :
    ((List.range' a n).filterMap fun j => tableAt m ((indices v).take j)).Nodup := by
  refine List.pairwise_filterMap.mpr (List.Pairwise.imp_of_mem ?_ List.nodup_range')
  rintro i j hi hj hij f hf _ hg rfl
  have hi := List.mem_range'_1.mp hi
  have hj := List.mem_range'_1.mp hj
  exact hij (level_unique ht hs (by omega) (by omega) hf hg)

end levels

section freed
variable {live : List Index → Word → Bool} {m m' : Machine} {v : Word} {t : Nat}
  (hm : Cleaned live m m' v 3 t) (ht3 : t ≤ 3) (ht : Tree child m.mem m.cr3 pgSelfIndex 3)
  (hd : depth m v = 4) (halone : ∀ l f, t < l → l < 3 → tableAt m ((indices v).take l) = some f →
    presentCount (m.mem f) = 1)
  (hs : index v 39 ≠ pgSelfIndex)
include hm ht3 ht hd halone hs

theorem freed_of_cleaned : ∃ tables, m'.freed = tables ++ m.freed ∧ tables.Nodup ∧
    ∀ f, f ∈ tables ↔ (∃ q, Outside q ∧ q.length ≤ 3 ∧ tableAt m q = some f) ∧
      ∀ q, Outside q → q.length ≤ 3 → tableAt m' q ≠ some f := by
  have hmem (f : Word) : f ∈ ((List.range' (t + 1) (3 - t)).filterMap fun j =>
      tableAt m ((indices v).take j)) ↔
        ∃ j, t < j ∧ j ≤ 3 ∧ tableAt m ((indices v).take j) = some f := by
    rw [List.mem_filterMap]
    refine exists_congr fun j => ?_
    rw [List.mem_range'_1, and_assoc]
    constructor
    · exact fun ⟨h1, h2, h3⟩ => ⟨h1, by omega, h3⟩
    · exact fun ⟨h1, h2, h3⟩ => ⟨h1, by omega, h3⟩
  refine ⟨_, hm.freed, ?_, fun f => (hmem f).trans ⟨?_, ?_⟩⟩
  · exact pathTables_nodup ht hs (by omega)
  · rintro ⟨j, h1, h2, hf⟩
    have hlen : ((indices v).take j).length ≤ 3 := by
      rw [length_take (by omega)]
      exact h2
    refine ⟨⟨_, outside_take hs j, hlen, hf⟩, fun q hq hql hq' => ?_⟩
    by_cases hpre : (indices v).take (t + 1) <+: q
    · rw [hm.tableAt_gone hq (by omega) (by omega) hpre] at hq'
      exact absurd hq' (by simp)
    · rw [hm.tableAt_stays hq (by omega) fun _ => hpre] at hq'
      obtain rfl := ht.unique q _ f hq (outside_take hs j) hql hlen hq' hf
      exact hpre (List.take_prefix_take_left (by omega))
  · rintro ⟨⟨q, hq, hql, hf⟩, hgone⟩
    by_cases hpre : t < 3 ∧ (indices v).take (t + 1) <+: q
    · have hlen := hpre.2.length_le
      rw [length_take (by omega)] at hlen
      exact ⟨q.length, by omega, hql, path_of_alone hd (by decide) halone hql hf hpre.2 ▸ hf⟩
    · exact absurd ((hm.tableAt_stays hq (by omega) fun ht h => hpre ⟨ht, h⟩).trans hf) (hgone q hq hql)

end freed

section removes
variable {m m' : Machine} {v pt : Word} {t : Nat} (hm : Cleaned (fun _ => present) m m' v 3 t)
  (ht3 : t < 3) (hw : WellFormed m) (hd : depth m v = 4)
  (halone : ∀ l f, t < l → l < 4 → tableAt m ((indices v).take l) = some f →
    presentCount (m.mem f) = 1)
  (hs : index v 39 ≠ pgSelfIndex)

include hm ht3 hd halone in
theorem others_of_cleaned {w : Word} (hcanw : canonical w) (hsw : index w 39 ≠ pgSelfIndex)
    (hne : indices w ≠ indices v) : walk m' w = walk m w ∧ walkEntries m' w = walkEntries m w := by
  have hlast : (indices w).take 3 ++ [slot w 3] = indices w := indices_take_four w
  by_cases hpre : (indices v).take (t + 1) <+: indices w
  · have hnew : seen m' ((indices w).take 3) (slot w 3) = none :=
      hm.gone _ _ (outside_take hsw 3) (length_take (by decide)).le ht3 (hlast.symm ▸ hpre)
    have hold : seen m ((indices w).take 3) (slot w 3) = none := by
      have htable := tableAt_concat (m := m) ((indices w).take 3) (slot w 3)
      rw [hlast] at htable
      cases hs : seen m ((indices w).take 3) (slot w 3) with
      | none => rfl
      | some e =>
        rw [hs] at htable
        exact absurd (path_of_alone hd le_rfl halone le_rfl htable hpre) hne
    rw [walk_of_entries hcanw, walk_of_entries hcanw, hnew, hold, walkEntries_of_none (k := 3) hnew,
      walkEntries_of_none (k := 3) hold]
    exact ⟨rfl, rfl⟩
  · have hsame (k : Fin 4) : seen m' ((indices w).take k) (slot w k) =
        seen m ((indices w).take k) (slot w k) := by
      refine hm.stays _ _ (outside_take hsw k) (length_take_le (by omega)) fun _ h =>
        hpre (h.trans ?_)
      rw [← indices_take_succ]
      exact List.take_prefix _ _
    refine ⟨?_, congrArg (List.mapM · _) (funext hsame)⟩
    rw [walk_of_entries hcanw, walk_of_entries hcanw]
    exact congrArg (Option.map _) (hsame 3)

include hm ht3 hw hd halone hs

theorem removes_of_cleaned (hcan : canonical v) (hpt : tableAt m ((indices v).take 3) = some pt) :
    RemovesOnly m v (frameOf (m.mem pt (slot v 3))) m' where
  returned := by
    have hchild : child (m.mem pt (slot v 3)) = some (frameOf (m.mem pt (slot v 3))) :=
      child_eq_some.mpr ⟨present_slot (k := 3) hd hpt, rfl⟩
    have htable : tableAt m (indices v) = child (m.mem pt (slot v 3)) :=
      (child_slot (k := 3) hpt).symm
    rw [walk, if_pos hcan, htable, hchild]
    rfl
  unmapped := by
    have hnone := hm.gone _ (slot v 3) (outside_take hs 3) (length_take (by decide)).le ht3
      (by rw [indices_take_four]; exact List.take_prefix _ _)
    rw [walk_of_entries hcan, hnone]
    rfl
  others w hcanw hsw hne :=
    others_of_cleaned hm ht3 hd halone hcanw hsw fun h => hne (page_of_indices hcanw hcan h)
  wf := ⟨hm.tree, hm.counted⟩
  occupied := hm.occupied
  freed := freed_of_cleaned hm ht3.le hw.tree hd (fun l f h1 h2 => halone l f h1 (by omega)) hs

end removes

section unmapPage
variable {m : Machine} {v pt : Word} (hw : WellFormed m) (hv : v % 4096 = 0) (hd : depth m v = 4)
  (hpt : tableAt m ((indices v).take 3) = some pt)

-- the entries unmap_page hands to clean_pts
def cleaned (v : Word) : PtEntries := ⟨Function.update (entryOf v) 3 0, 15⟩

theorem cleaned_entries (v : Word) (k : Fin 4) (hk : k.val < 3) :
    (cleaned v).entries k = entryOf v k :=
  Function.update_of_ne (fun h => by simp [h] at hk) _ _

include hv hd hpt

omit hw in
theorem unmapPage_eq (hself : child (m.mem m.cr3 pgSelfIndex) = some m.cr3) (flags : Word) :
    unmapPage v flags m =
    (do
      cleanLevels (cleaned v) (downFrom 3 (by omega))
      pure (frameOf (m.mem pt (slot v 3)))) m := by
  have hassert : assert (v % 4096 = 0) m = .ok () m := by
    rw [assert, if_pos hv]
    rfl
  rw [unmapPage, bind_ok hassert, bind_ok (ptes_eq hself), hd,
    bind_ok (load_entryOf (k := 3) hself hpt)]
  rfl

include hw

theorem unmapPage_shared (hone : presentCount (m.mem pt) ≠ 1) (hs : index v 39 ≠ pgSelfIndex) :
    ∃ m', unmapPage v 0 m = .ok (frameOf (m.mem pt (slot v 3))) m' ∧ walk m' v = walk m v := by
  obtain ⟨f, hf⟩ := exists_tableAt (m := m) (a := v) (k := (2 : Fin 4)) (by rw [hd]; decide)
  have hchild : child (m.mem f (slot v 2)) = some pt := (child_slot hf).trans hpt
  have hcount : refcount (m.mem f (slot v 2)) = presentCount (m.mem pt) :=
    hw.refcount_eq (outside_concat hs 2) (length_take_lt (by decide)) hf hchild
  have hpos : presentCount (m.mem pt) ≠ 0 := by
    refine Nat.pos_iff_ne_zero.mp (presentCount_pos_iff.mpr ⟨slot v 3, ?_⟩)
    exact present_slot hd hpt
  have hnext : child (m.mem f (slot v 2) - oneReference) = child (m.mem f (slot v 2)) :=
    child_congr (low_sub low_oneReference)
  have hrun := @cleanLevels_stop m v f (cleaned v) 2 (downFrom 2 (by omega)) hw.tree.self
    (cleaned_entries v 2 (by decide)) hf (by omega) (by omega)
  refine ⟨_, (unmapPage_eq hv hd hpt hw.tree.self 0).trans (bind_ok hrun), ?_⟩
  rw [walk, walk, tableAt, tableAt]
  exact if_congr Iff.rfl (congrArg _ (reach_store_same_next hnext _ _)) rfl

theorem unmapPage_alone (ho : Occupied m) (hone : presentCount (m.mem pt) = 1)
    (hcan : canonical v) (hs : index v 39 ≠ pgSelfIndex) :
    ∃ m', unmapPage v 0 m = .ok (frameOf (m.mem pt (slot v 3))) m' ∧
      RemovesOnly m v (frameOf (m.mem pt (slot v 3))) m' := by
  obtain ⟨t, m', -, hzero, hrun, hm⟩ := @cleanLevels_cleans (fun _ => present) v
    (fun _ _ _ => rfl) hs _ (cleaned_entries v) 3 le_rfl m 0 hw.tree hw.counted.all
    (fun q f hq hne hql _ hf => ho q f hq hne hql hne hf) pt hpt (fun k f hk hf => by
      have hchild : child (m.mem f (slot v k)) = some pt := by
        rw [child_slot hf, hk]
        exact hpt
      rw [hw.refcount_eq (outside_concat hs k) (length_take_lt (by omega)) hf hchild,
        hone]) fun h => absurd rfl h
  have ht3 : t < 3 := (hzero (by decide)).mpr rfl
  have halone : ∀ l f, t < l → l < 4 → tableAt m ((indices v).take l) = some f →
      presentCount (m.mem f) = 1 := by
    intro l f h1 h2 hf
    by_cases hl : l = 3
    · subst hl
      obtain rfl : pt = f := Option.some.inj (hpt.symm.trans hf)
      exact hone
    · exact hm.alone l f h1 (by omega) hf
  exact ⟨m', (unmapPage_eq hv hd hpt hw.tree.self 0).trans (bind_ok hrun),
    removes_of_cleaned hm ht3 hw hd halone hs hcan hpt⟩

end unmapPage

theorem depth_of_mapped {m : Machine} {v : Word} (h : (walk m v).isSome = true) : depth m v = 4 := by
  rw [walk] at h
  split at h
  · rw [Option.isSome_map] at h
    exact le_antisymm depth_le ((tableAt_isSome_iff (k := 4) le_rfl).mp h)
  · simp at h

theorem unmap_page_iff (m : Machine) (hw : WellFormed m) (ho : Occupied m) (v : Word)
    (hv : v % 4096 = 0) (hcan : canonical v) (hs : index v 39 ≠ pgSelfIndex)
    (hmapped : (walk m v).isSome = true) :
    (∃ physical m', unmapPage v 0 m = .ok physical m' ∧ RemovesOnly m v physical m') ↔
      ∀ pt, tableAt m ((indices v).take 3) = some pt → presentCount (m.mem pt) = 1 := by
  have hd := depth_of_mapped hmapped
  obtain ⟨pt, hpt⟩ := exists_tableAt (m := m) (a := v) (k := 3) (by omega)
  constructor
  · rintro ⟨physical, m', hrun, hremoves⟩ pt' hpt'
    obtain rfl : pt = pt' := Option.some.inj (hpt.symm.trans hpt')
    by_contra hone
    obtain ⟨m'', hrun', hkept⟩ := unmapPage_shared hw hv hd hpt hone hs
    obtain ⟨-, rfl⟩ : physical = _ ∧ m' = m'' := by simpa using hrun.symm.trans hrun'
    rw [hremoves.unmapped] at hkept
    rw [← hkept] at hmapped
    exact absurd hmapped (by simp)
  · intro hone
    obtain ⟨m', hrun, hremoves⟩ := unmapPage_alone hw hv hd hpt ho (hone pt hpt) hcan hs
    exact ⟨_, m', hrun, hremoves⟩

theorem lowPages_occupied (both : Bool) : Occupied (lowPages both) := by
  intro q f hq hne hql _ hf
  obtain ⟨h2, h3, h4⟩ := lowPages_presentCount both
  rcases lowPages_tableAt hq hql hf with ⟨rfl, -⟩ | ⟨rfl, rfl⟩ | ⟨rfl, rfl⟩ | ⟨rfl, rfl⟩
  · exact absurd rfl hne
  · exact h2.trans_ne one_ne_zero
  · exact h3.trans_ne one_ne_zero
  · exact h4.trans_ne (by cases both <;> decide)

theorem twoPages_occupied : Occupied twoPages := lowPages_occupied true

theorem unmap_page_iff_sample :
    (∃ physical m', unmapPage 0 0 (lowPages false) = .ok physical m' ∧
      RemovesOnly (lowPages false) 0 physical m') ∧
    ¬ ∃ physical m', unmapPage 0 0 (lowPages true) = .ok physical m' ∧
      RemovesOnly (lowPages true) 0 physical m' := by
  have htable (both : Bool) : tableAt (lowPages both) ((indices 0).take 3) = some 0x4000 := by
    cases both <;> decide
  constructor
  · refine (unmap_page_iff (lowPages false) (lowPages_wellFormed false) (lowPages_occupied false) 0
      (by decide) (by decide) (by decide) (by decide)).mpr fun pt hpt => ?_
    obtain rfl := Option.some.inj ((htable false).symm.trans hpt)
    exact (lowPages_presentCount _).2.2
  · rw [unmap_page_iff (lowPages true) (lowPages_wellFormed true) (lowPages_occupied true) 0
      (by decide) (by decide) (by decide) (by decide)]
    intro hone
    exact absurd ((lowPages_presentCount _).2.2.symm.trans (hone 0x4000 (htable true))) (by decide)

-- the page at 0 is still mapped after unmap_page, as the page at 0x1000 is in the same page table
theorem unmap_page_keeps : ¬ ∀ (m : Machine) (v : Word), WellFormed m → Occupied m →
    v % 4096 = 0 → canonical v → index v 39 ≠ pgSelfIndex → (walk m v).isSome = true →
    ∃ physical m', unmapPage v 0 m = .ok physical m' ∧ RemovesOnly m v physical m' := by
  intro h
  obtain ⟨physical, m', hrun, hremoves⟩ := h twoPages 0 twoPages_wellFormed twoPages_occupied
    (by decide) (by decide) (by decide) (by decide)
  obtain ⟨m'', hrun', hkept⟩ := @unmapPage_shared twoPages 0 0x4000
    twoPages_wellFormed (by decide) (depth_of_mapped (by decide)) (by decide)
    ((lowPages_presentCount _).2.2.trans_ne (by decide)) (by decide)
  obtain ⟨-, rfl⟩ : physical = _ ∧ m' = m'' := by simpa using hrun.symm.trans hrun'
  rw [hremoves.unmapped] at hkept
  exact absurd hkept (by decide)

end Lasagne.Pages
