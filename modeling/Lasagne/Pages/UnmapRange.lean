import Mathlib
import Lasagne.Pages.MapRange

namespace Lasagne.Pages
open RadixTree StateRun

-- the entries that count when the first i pages of a range are unmapped, as unmap_page leaves
-- their own entries present
def remaining (start : Word) (i : Nat) (q : List Index) (e : Word) : Bool :=
  present e && !decide (∃ k, k < i ∧ q = indices (pageAt start k))

def privateFrame (m : Machine) (v : Word) : Option Word :=
  (leaf m v).bind fun e => if e &&& pgLazy = 0 then some (frameOf e) else none

-- m' is m with the first i pages of the range unmapped
structure RangeUnmapped (m m' : Machine) (start : Word) (i : Nat) : Prop where
  tree : Tree child m'.mem m'.cr3 pgSelfIndex 3
  counted : Counted child refcount (remaining start i) m'.mem m'.cr3 pgSelfIndex 3 []
  occupied : OccupiedBut (remaining start i) m' []
  zeroPage : m'.zeroPage = m.zeroPage
  frames : m'.frames = m.frames
  calls : m'.calls = m.calls
  stays : ∀ q j, Outside q → q.length = 3 → (∀ k < i, q ++ [j] ≠ indices (pageAt start k)) →
    seen m' q j = seen m q j
  removed : ∀ q f, Outside q → q.length ≤ 3 → tableAt m' q = some f → tableAt m q = some f
  freed : ∃ fs ts, m'.freed = fs ++ m.freed ∧
    fs.Perm (ts ++ (List.range i).filterMap fun k => privateFrame m (pageAt start k)) ∧
    ts.Nodup ∧ ∀ f, f ∈ ts ↔ IsTable m f ∧ ¬ IsTable m' f

section remaining
variable {start : Word} {i : Nat} {q : List Index} {e : Word} {t : Index → Word}

theorem remaining_of_ne (h : q ≠ indices (pageAt start i)) :
    remaining start (i + 1) q e = remaining start i q e := by
  have hiff : (∃ k, k < i + 1 ∧ q = indices (pageAt start k)) ↔
      ∃ k, k < i ∧ q = indices (pageAt start k) := by
    refine exists_congr fun k => and_congr_left fun hk => ?_
    refine ⟨fun hlt => lt_of_le_of_ne (Nat.le_of_lt_succ hlt) ?_, fun hlt => by omega⟩
    rintro rfl
    exact h hk
  rw [remaining, remaining, decide_eq_decide.mpr hiff]

theorem remaining_iff : remaining start i q e = true ↔
    present e = true ∧ ∀ k < i, q ≠ indices (pageAt start k) := by
  simp [remaining]

theorem remaining_of_notMem (h : ∀ k < i, q ≠ indices (pageAt start k)) :
    remaining start i q e = present e := by
  have hnot : ¬ ∃ k, k < i ∧ q = indices (pageAt start k) := by
    rintro ⟨k, hk, hq⟩
    exact h k hk hq
  simp [remaining, hnot]

theorem remaining_table (h : q.length ≤ 3) : remaining start i q e = present e :=
  remaining_of_notMem fun _ _ => ne_of_length (by change _ ≠ 4; omega)

theorem remaining_self : remaining start (i + 1) (indices (pageAt start i)) e = false := by
  have hdone : ∃ k, k < i + 1 ∧ indices (pageAt start i) = indices (pageAt start k) :=
    ⟨i, by omega, rfl⟩
  rw [remaining, decide_eq_true hdone]
  exact Bool.and_false _

theorem remaining_count (h : q.length < 3) : count (remaining start i) q t = presentCount t := by
  rw [presentCount_eq q t]
  exact count_congr fun j => remaining_table (by rw [List.length_append]; exact h)

theorem remaining_zero : remaining start 0 q e = present e :=
  remaining_of_notMem fun _ hk => absurd hk (Nat.not_lt_zero _)

end remaining

theorem RangeUnmapped.refl {m : Machine} {start : Word} (hw : WellFormed m) (ho : Occupied m) :
    RangeUnmapped m m start 0 := by
  have hlive : remaining start 0 = fun _ => present :=
    funext fun q => funext fun e => remaining_zero
  exact {
    tree := hw.tree
    counted := hlive ▸ hw.counted
    occupied := hlive ▸ ho
    zeroPage := rfl
    frames := rfl
    calls := rfl
    stays := fun _ _ _ _ _ => rfl
    removed := fun _ _ _ _ hf => hf
    freed := ⟨[], [], rfl, .refl _, .nil, fun f => by simp⟩ }

namespace RangeUnmapped
variable {m m1 : Machine} {start size e pt : Word} {i : Nat} (h : RangeUnmapped m m1 start i)
  (hr : PageRange start size) (hi : i < pageCount size)
include h hr hi

theorem leaf_kept : leaf m1 (pageAt start i) = leaf m (pageAt start i) := by
  refine h.stays _ _ (outside_take (hr.outside i hi) 3) (length_take (by decide)) fun k hk he => ?_
  rw [indices_take_four] at he
  have := hr.indices_inj hi (hk.trans hi) he
  omega

variable (hd : depth m1 (pageAt start i) = 4)
  (hpt : tableAt m1 ((indices (pageAt start i)).take 3) = some pt)
include hd hpt

theorem page_counter {k : Fin 4} {f : Word} (hk : k.val + 1 = 3)
    (hf : tableAt m1 ((indices (pageAt start i)).take k) = some f) :
    refcount (m1.mem f (slot (pageAt start i) k)) =
      count (remaining start (i + 1)) ((indices (pageAt start i)).take 3) (m1.mem pt) + 1 := by
  have hlast := indices_take_four (pageAt start i)
  have hchild : child (m1.mem f (slot (pageAt start i) k)) = some pt := by
    rw [child_slot hf, hk]
    exact hpt
  have hcount := h.counted _ _ f pt (outside_concat (hr.outside i hi) k)
    (length_take_lt (by omega)) (by simp) hf hchild
  rw [← indices_take_succ, hk] at hcount
  rw [hcount]
  refine count_succ (i := slot (pageAt start i) 3) (fun j hj => remaining_of_ne fun he => hj ?_) ?_ ?_
  · simpa using List.append_inj' (he.trans hlast.symm) rfl
  · rw [hlast]
    exact remaining_self
  · rw [hlast, remaining_of_notMem fun k hk he => ?_]
    · exact present_slot (k := 3) hd hpt
    · have := hr.indices_inj hi (hk.trans hi) he
      omega

theorem cleans : ∃ t m', t ≤ 3 ∧
    (t < 3 → count (remaining start (i + 1)) ((indices (pageAt start i)).take 3) (m1.mem pt) = 0) ∧
    cleanLevels (cleaned (pageAt start i)) (downFrom 3 (by decide)) m1 = .ok () m' ∧
    Cleaned (remaining start (i + 1)) m1 m' (pageAt start i) 3 t := by
  have hlast := indices_take_four (pageAt start i)
  have hsame {q : List Index} (hq : q ≠ (indices (pageAt start i)).take 3) (table : Index → Word) :
      count (remaining start i) q table = count (remaining start (i + 1)) q table :=
    count_congr fun j => (remaining_of_ne fun he => hq (by
      simpa using (List.append_inj' (he.trans hlast.symm) rfl).1)).symm
  obtain ⟨t, m', ht, hzero, hrun, hm⟩ := @cleanLevels_cleans (remaining start (i + 1)) _
    (fun _ _ hl => remaining_table hl) (hr.outside i hi) _ (cleaned_entries _) 3 le_rfl m1 _ h.tree
    (fun p j f g ha hl hne hf hg => (h.counted p j f g ha hl (by simp) hf hg).trans (hsame hne _))
    (fun q f hq hne hql hq3 hf => hsame hq3 (m1.mem f) ▸ h.occupied q f hq hne hql hne hf) pt hpt
    (fun k f hk hf => h.page_counter hr hi hd hpt hk hf) fun _ => rfl
  exact ⟨t, m', ht, fun hlt => (hzero (by decide)).mp hlt, hrun, hm⟩

end RangeUnmapped

section cleaned
variable {m m' : Machine} {start v pt : Word} {i t : Nat}
  (hm : Cleaned (remaining start i) m m' v 3 t)
include hm

theorem alone_of_cleaned {l : Nat} {f : Word} (hl1 : t < l) (hl2 : l < 3)
    (hf : tableAt m ((indices v).take l) = some f) : presentCount (m.mem f) = 1 := by
  have halone := hm.alone l f hl1 hl2 hf
  rwa [remaining_count (length_take_lt hl2)] at halone

theorem gone_of_cleaned (hd : depth m v = 4) (hpt : tableAt m ((indices v).take 3) = some pt)
    (hzero : count (remaining start i) ((indices v).take 3) (m.mem pt) = 0) {q : List Index}
    {j : Index} (hql : q.length = 3) (ht3 : t < 3) (hpre : (indices v).take (t + 1) <+: q ++ [j])
    (hne : ∀ k < i, q ++ [j] ≠ indices (pageAt start k)) : seen m q j = none := by
  refine Option.eq_none_iff_forall_ne_some.mpr fun x hx => ?_
  obtain ⟨g, hg, hview⟩ := Option.bind_eq_some_iff.mp hx
  have hpre' : (indices v).take (t + 1) <+: q := by
    refine (prefix_concat_cases hpre).resolve_left (ne_of_length ?_)
    rw [length_take (by omega), List.length_append, hql]
    change t + 1 ≠ 4
    omega
  have hpath := path_of_alone hd (by decide) (fun l f hl1 hl2 hf =>
    alone_of_cleaned hm hl1 hl2 hf) hql.le hg hpre'
  rw [hql] at hpath
  rw [hpath] at hg hne
  obtain rfl : pt = g := Option.some.inj (hpt.symm.trans hg)
  have hdead := count_eq_zero_iff.mp hzero j
  rw [remaining_of_notMem hne, present_of_view hview] at hdead
  exact absurd hdead (by decide)

theorem tables_of_cleaned {q : List Index} {f : Word} (hq : Outside q) (hql : q.length ≤ 3)
    (hf : tableAt m' q = some f) : tableAt m q = some f := by
  by_cases hpre : t < 3 ∧ (indices v).take (t + 1) <+: q
  · rw [hm.tableAt_gone hq (by omega) hpre.1 hpre.2] at hf
    exact absurd hf (by simp)
  · rwa [hm.tableAt_stays hq (by omega) fun hlt hp => hpre ⟨hlt, hp⟩] at hf

end cleaned

namespace RangeUnmapped
variable {m m1 : Machine} {start size e : Word} {i : Nat} (h : RangeUnmapped m m1 start i)
include h

theorem freed_step {m2 : Machine} {ts : List Word}
    (hfreed : m2.freed = (privateFrame m (pageAt start i)).toList ++ (ts ++ m1.freed))
    (hnodup : ts.Nodup) (hmem : ∀ f, f ∈ ts ↔ IsTable m1 f ∧ ¬ IsTable m2 f)
    (hsub : ∀ f, IsTable m2 f → IsTable m1 f) : ∃ fs ts, m2.freed = fs ++ m.freed ∧
      fs.Perm (ts ++ (List.range (i + 1)).filterMap fun k => privateFrame m (pageAt start k)) ∧
      ts.Nodup ∧ ∀ f, f ∈ ts ↔ IsTable m f ∧ ¬ IsTable m2 f := by
  obtain ⟨fs, ts', hold, hperm, hnodup', hmem'⟩ := h.freed
  have hsub' (f : Word) : IsTable m1 f → IsTable m f := by
    rintro ⟨q, hq, hql, hf⟩
    exact ⟨q, hq, hql, h.removed q f hq hql hf⟩
  refine ⟨(privateFrame m (pageAt start i)).toList ++ (ts ++ fs), ts ++ ts', ?_, ?_, ?_, fun f => ?_⟩
  · rw [hfreed, hold]
    simp only [List.append_assoc]
  · have hlast : (List.range (i + 1)).filterMap (fun k => privateFrame m (pageAt start k)) =
        (List.range i).filterMap (fun k => privateFrame m (pageAt start k)) ++
          (privateFrame m (pageAt start i)).toList := by
      rw [List.range_succ, List.filterMap_append]
      cases hp : privateFrame m (pageAt start i) <;> simp [hp]
    rw [hlast]
    refine List.perm_append_comm.trans ?_
    simpa only [List.append_assoc] using (hperm.append_left ts).append_right _
  · refine hnodup.append hnodup' fun f hf hf' => ?_
    exact ((hmem' f).mp hf').2 ((hmem f).mp hf).1
  · rw [List.mem_append, hmem, hmem']
    constructor
    · rintro (⟨h1, h2⟩ | ⟨h1, h2⟩)
      · exact ⟨hsub' f h1, h2⟩
      · exact ⟨h1, fun h3 => h2 (hsub f h3)⟩
    · rintro ⟨h1, h2⟩
      by_cases h3 : IsTable m1 f
      · exact .inl ⟨h3, h2⟩
      · exact .inr ⟨h1, h3⟩

theorem step (hr : PageRange start size) (hi : i < pageCount size)
    (hleaf : leaf m (pageAt start i) = some e) : ∃ m2,
      unmapStep (pageAt start i) m1 = .ok () m2 ∧ RangeUnmapped m m2 start (i + 1) := by
  obtain ⟨hd, pt, hpt, hview⟩ := leaf_cases ((h.leaf_kept hr hi).trans hleaf)
  obtain ⟨t, m', ht, hzero, hrun, hm⟩ := h.cleans hr hi hd hpt
  have hunmap : unmapPage (pageAt start i) 0 m1 =
      .ok (frameOf (m1.mem pt (slot (pageAt start i) 3))) m' :=
    (unmapPage_eq (hr.pageAt_aligned i) hd hpt h.tree.self 0).trans (bind_ok hrun)
  have hfree : when ((m1.mem pt (slot (pageAt start i) 3) &&& pgLazy == 0) = true)
      (freeFrame (frameOf (m1.mem pt (slot (pageAt start i) 3)))) m' =
        .ok () { m' with freed := (privateFrame m (pageAt start i)).toList ++ m'.freed } := by
    rw [privateFrame, hleaf, and_of_view hview (by decide),
      show frameOf (m1.mem pt (slot (pageAt start i) 3)) = frameOf e from
        and_of_view hview (by decide)]
    by_cases hlazy : e &&& pgLazy = 0
    · rw [when, if_pos (by simpa using hlazy), Option.bind_some, if_pos hlazy]
      rfl
    · rw [when, if_neg (by simpa using hlazy), Option.bind_some, if_neg hlazy]
      rfl
  obtain ⟨ts, hfreed, hnodup, hmem⟩ := freed_of_cleaned hm ht h.tree hd
    (fun l f hl1 hl2 hf => alone_of_cleaned hm hl1 hl2 hf) (hr.outside i hi)
  refine ⟨{ m' with freed := (privateFrame m (pageAt start i)).toList ++ m'.freed }, ?_, {
    tree := hm.tree
    counted := hm.counted
    occupied := hm.occupied
    zeroPage := hm.zeroPage.trans h.zeroPage
    frames := hm.frames.trans h.frames
    calls := hm.calls.trans h.calls
    stays := fun q j hq hql hne => ?_
    removed := fun q f hq hql hf => h.removed q f hq hql (tables_of_cleaned hm hq hql hf)
    freed := h.freed_step ?_ hnodup (fun f => (hmem f).trans (and_congr_right fun _ => ?_)) ?_ }⟩
  · rw [unmapStep, bind_ok (ptes_eq h.tree.self), hd, if_pos (show 2 ^ 4 - 1 = 0xF by decide),
      bind_ok (load_entryOf (k := 3) h.tree.self hpt), bind_ok hunmap]
    exact hfree
  · have hbefore := h.stays q j hq hql fun k hk => hne k (by omega)
    by_cases hpre : t < 3 ∧ (indices (pageAt start i)).take (t + 1) <+: q ++ [j]
    · have hnone := gone_of_cleaned hm hd hpt (hzero hpre.1) hql hpre.1 hpre.2 hne
      exact (hm.gone q j hq hql.le hpre.1 hpre.2).trans (hnone.symm.trans hbefore)
    · exact (hm.stays q j hq hql.le fun hlt hp => hpre ⟨hlt, hp⟩).trans hbefore
  · exact congrArg ((privateFrame m (pageAt start i)).toList ++ ·) hfreed
  · constructor
    · rintro hgone ⟨q, hq, hql, hf⟩
      exact hgone q hq hql hf
    · exact fun hgone q hq hql hf => hgone ⟨q, hq, hql, hf⟩
  · rintro f ⟨q, hq, hql, hf⟩
    exact ⟨q, hq, hql, tables_of_cleaned hm hq hql hf⟩

end RangeUnmapped

theorem unmapLoop_unmaps {m m1 : Machine} {start size : Word} {i : Nat} (hr : PageRange start size)
    (hleaf : ∀ k < pageCount size, ∃ e, leaf m (pageAt start k) = some e) (fuel : Nat)
    (h : RangeUnmapped m m1 start i) (hi : i ≤ pageCount size) (hfuel : pageCount size - i < fuel) :
    ∃ m2, unmapLoop start size fuel (BitVec.ofNat 64 (4096 * i)) m1 = .ok () m2 ∧
      RangeUnmapped m m2 start (pageCount size) := by
  induction fuel generalizing m1 i with
  | zero => exact absurd hfuel (Nat.not_lt_zero _)
  | succ fuel ih =>
    rw [unmapLoop_eq hr hi]
    by_cases hlt : i < pageCount size
    · obtain ⟨e, he⟩ := hleaf i hlt
      obtain ⟨m2, hrun, hstep⟩ := h.step hr hlt he
      rw [if_pos hlt, bind_ok hrun]
      exact ih hstep (by omega) (by omega)
    · obtain rfl : i = pageCount size := by omega
      rw [if_neg hlt]
      exact ⟨m1, rfl, h⟩

end Lasagne.Pages
