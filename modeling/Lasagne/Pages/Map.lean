import Mathlib
import Lasagne.Pages.Link

namespace Lasagne.Pages
open RadixTree StateRun
open X86 (canonical)

section leaf
variable {m : Machine} {v f e : Word} (hw : WellFormed m) (hs : index v 39 ≠ pgSelfIndex)
  (hf : tableAt m ((indices v).take 3) = some f)

theorem indices_take_four (v : Word) : (indices v).take 3 ++ [slot v 3] = indices v :=
  (indices_take_succ v 3).symm

include hw hs hf

theorem leaf_tree : Tree child (RadixTree.store m.mem f (slot v 3) e) m.cr3 pgSelfIndex 3 :=
  hw.tree.store_graft (outside_concat hs 3) (length_take (by omega)).le hf
    (Tree.grafts_bottom (length_take (by omega)))

theorem leaf_look {q : List Index} {j : Index} (hq : Outside q) (hql : q.length ≤ 3) :
    look child view (RadixTree.store m.mem f (slot v 3) e) m.cr3 q j =
      if q ++ [j] = indices v then view e else seen m q j := by
  have hlen : ((indices v).take 3).length = 3 := length_take (by omega)
  have hpath : q = (indices v).take 3 ∧ j = slot v 3 ↔ q ++ [j] = indices v := by
    have hv := indices_take_four v
    constructor
    · rintro ⟨rfl, rfl⟩
      exact hv
    · exact fun h => by simpa using List.append_inj' (h.trans hv.symm) rfl
  rw [look_graft hw.tree (outside_take hs 3) hlen.le hf (Tree.grafts_bottom hlen)
    (fun hlt => by omega) (fun y hy => view_eq_none.mpr (child_eq_none.mp hy)) hq hql]
  exact if_congr hpath rfl rfl

theorem install_over (he : present e = true) (hd : depth m v = 4) :
    install (entryOf v 3) e m = .ok () (Machine.withMem { m with installed := e :: m.installed }
        (RadixTree.store m.mem f (slot v 3) e)) ∧
      Counted child refcount (fun _ => present) (RadixTree.store m.mem f (slot v 3) e) m.cr3
        pgSelfIndex 3 [] := by
  have hold : present (m.mem f (slot v 3)) = true := by
    rw [← child_isSome, child_slot (k := 3) hf, tableAt_isSome_iff (by decide), hd]
    decide
  refine ⟨?_, hw.counted.store_bottom hw.tree (outside_concat hs 3) (length_take (by omega)) hf
    (he.trans hold.symm)⟩
  rw [install, bind_ok (store_entryOf (k := 3) hw.tree.self hf)]
  rfl

theorem install_new (he : present e = true) (hd : depth m v = 3) :
    ∃ mem, increaseCounter (entryOf v 2) m = .ok () (m.withMem mem) ∧
      ∃ mem', install (entryOf v 3) e (m.withMem mem) =
          .ok () (Machine.withMem { m with installed := e :: m.installed } mem') ∧
        Tree child mem' m.cr3 pgSelfIndex 3 ∧
        Counted child refcount (fun _ => present) mem' m.cr3 pgSelfIndex 3 [] ∧
        (∀ q j, look child view mem' m.cr3 q j =
          look child view (RadixTree.store m.mem f (slot v 3) e) m.cr3 q j) ∧
        TableWrites m (m.withMem mem') := by
  obtain ⟨f', hf'⟩ := exists_tableAt (m := m) (a := v) (k := 2) (by omega)
  have hlen : ((indices v).take 3).length = 3 := length_take (by omega)
  have hold : present (m.mem f (slot v 3)) = false := by
    rw [← Bool.not_eq_true, ← child_isSome, child_slot (k := 3) hf, tableAt_isSome_iff (by decide), hd]
    decide
  have hff' : f ≠ f' := by
    rintro rfl
    exact absurd (level_unique hw.tree hs (by decide) le_rfl hf' hf) (by decide)
  have hlow : child (m.mem f' (slot v 2) + oneReference) = child (m.mem f' (slot v 2)) :=
    child_congr (low_add low_oneReference)
  have ht := leaf_tree (e := e) hw hs hf
  have hc := hw.counted.all.store_graft hw.tree (outside_concat hs 3) hlen.le hf
    (Tree.grafts_bottom (x := e) hlen) (fun _ _ (hlt : ((indices v).take 3).length < 3) => by omega)
  have hparent : RadixTree.store m.mem f (slot v 3) e f' (slot v 2) = m.mem f' (slot v 2) := by
    rw [store_of_frame_ne hff'.symm]
  have hbeside : reach child (RadixTree.store m.mem f (slot v 3) e) m.cr3 ((indices v).take 2) =
      some f' := by
    rw [hw.tree.reach_store (outside_take hs 3) hlen.le hf (outside_take hs 2)
      (by rw [length_take (by omega)]; omega)]
    · exact hf'
    · intro hpre
      have := hpre.length_le
      rw [List.length_append, hlen, length_take (by omega)] at this
      omega
  obtain ⟨ht', hc', hlook⟩ := raise_parent hw hs (k := 2) (by decide) hf' hf ht hc hbeside hparent
    (by
      rw [store_table]
      exact presentCount_update_on hold he)
  rw [hparent, store_comm hff'] at ht' hc' hlook
  have hstore := store_entryOf (m := m.withMem (RadixTree.store m.mem f' (slot v 2)
    (m.mem f' (slot v 2) + oneReference))) (a := v) (k := 3) (f := f) (x := e)
    ((next_store_same_next hlow).trans hw.tree.self) ((reach_store_same_next hlow _ _).trans hf)
  refine ⟨_, increaseCounter_entryOf (k := 2) hw.tree.self hf', _, ?_, ht', hc', hlook, ?_⟩
  · rw [install, bind_ok hstore]
    rfl
  · have hcounter : TableWrites m (m.withMem (RadixTree.store m.mem f' (slot v 2)
        (m.mem f' (slot v 2) + oneReference))) :=
      tableWrites_counter (outside_take hs 2) (length_take_le (by decide)) hf' rfl rfl hlow
    exact hcounter.trans (tableWrites_leaf (outside_take hs 3) hlen.le
      (hcounter.tables _ f (outside_take hs 3) hlen.le hf) rfl (hw.tree.store_same_next hlow) hlen rfl)

end leaf

-- m' is m with the entry e for the page of v, under tables of which those missing in m are new
structure Mapped (m m' : Machine) (v e : Word) : Prop where
  wf : WellFormed m'
  cr3 : m'.cr3 = m.cr3
  zeroPage : m'.zeroPage = m.zeroPage
  frames : m'.frames = m.frames
  freed : m'.freed = m.freed
  calls : m'.calls = m.calls + (3 - depth m v)
  seen : ∀ q j, Outside q → q.length ≤ 3 → seen m' q j =
    if q ++ [j] = indices v then view e
    else if depth m v ≤ q.length ∧ q ++ [j] = (indices v).take (q.length + 1) then
      view (tableEntry (m.frames (m.calls + (q.length - depth m v))))
    else Pages.seen m q j

section mapPage
variable {m : Machine} {v p flags : Word} (hs : index v 39 ≠ pgSelfIndex)
  (he : present (p ||| flags) = true) (hf : FreshFrames m (3 - depth m v))
include hs he hf

theorem install_mapped {m1 : Machine} (h : Linked m m1 v (depth m v) (max (depth m v) 3)) :
    ∃ m2 m', when ((2 ^ depth m v - 1) &&& 1 <<< 3 = 0) (increaseCounter (entryOf v 2)) m1 =
        .ok () m2 ∧ install (entryOf v 3) (p ||| flags) m2 = .ok () m' ∧
      Mapped m m' v (p ||| flags) ∧ TableWrites m1 m' := by
  have hd4 : depth m v ≤ 4 := depth_le
  have hdepth : depth m1 v = max (depth m v) 3 :=
    h.depth_eq hs rfl (by omega) (by omega) hf
  obtain ⟨f, hleaf⟩ := exists_tableAt (m := m1) (a := v) (k := 3) (by omega)
  have htree := leaf_tree (e := p ||| flags) h.wf hs hleaf
  have hresult (mem : Word → Index → Word) (ht : Tree child mem m1.cr3 pgSelfIndex 3)
      (hc : Counted child refcount (fun _ => present) mem m1.cr3 pgSelfIndex 3 [])
      (hlook : ∀ q j, look child view mem m1.cr3 q j =
        look child view (RadixTree.store m1.mem f (slot v 3) (p ||| flags)) m1.cr3 q j) :
      Mapped m (Machine.withMem { m1 with installed := (p ||| flags) :: m1.installed } mem) v
        (p ||| flags) := by
    refine ⟨⟨ht, hc⟩, h.cr3, h.zeroPage, h.frames, h.freed, ?_, fun q j hq hql => ?_⟩
    · have := h.calls
      change m1.calls = _
      omega
    · refine (hlook q j).trans ((leaf_look h.wf hs hleaf hq hql).trans ?_)
      by_cases hpath : q ++ [j] = indices v
      · rw [if_pos hpath, if_pos hpath]
      · rw [if_neg hpath, if_neg hpath, h.seen q j hq hql]
        refine if_congr ⟨fun hc => ⟨hc.1, hc.2.2⟩, fun hc => ⟨hc.1, ?_, hc.2⟩⟩ rfl rfl
        have : q.length ≠ 3 := fun hl => hpath (by rw [hc.2, hl]; rfl)
        omega
  by_cases h4 : depth m v = 4
  · have hmask : ¬ (2 ^ depth m v - 1) &&& 1 <<< 3 = 0 := mask_level.mpr (by omega)
    obtain ⟨hrun, hc⟩ := install_over h.wf hs hleaf he (by omega)
    refine ⟨m1, _, ?_, hrun, hresult _ htree hc fun _ _ => rfl, tableWrites_leaf (outside_take hs 3)
      (length_take_le le_rfl) hleaf rfl h.wf.tree (length_take (by decide)) rfl⟩
    rw [when, if_neg hmask]
    rfl
  · have hmask : (2 ^ depth m v - 1) &&& 1 <<< 3 = 0 := by
      by_contra hne
      have := mask_level.mp hne
      omega
    obtain ⟨mem, hrun1, mem', hrun2, ht, hc, hlook, hwrites⟩ :=
      install_new h.wf hs hleaf he (hdepth.trans (by omega))
    refine ⟨_, _, ?_, hrun2, hresult _ ht hc hlook, ⟨hwrites.tables, hwrites.rest⟩⟩
    rw [when, if_pos hmask, hrun1]

theorem mapPage_writes (hw : WellFormed m) (hv : v % 4096 = 0) (hp : p % 4096 = 0) : ∃ m',
    mapPage v p flags m = .ok () m' ∧ Mapped m m' v (p ||| flags) ∧ TableWrites m m' := by
  have hd4 : depth m v ≤ 4 := depth_le
  obtain ⟨m1, hrun1, h1, hwrites1⟩ : ∃ m1, when ((2 ^ depth m v - 1) &&& 1 <<< 2 = 0)
      (ensurePtExists ⟨entryOf v, 2 ^ depth m v - 1⟩) m = .ok () m1 ∧
        Linked m m1 v (depth m v) (max (depth m v) 3) ∧ TableWrites m m1 := by
    by_cases h2 : 2 < depth m v
    · have hmax : max (depth m v) 3 = depth m v := by omega
      refine ⟨m, ?_, ?_, .refl m⟩
      · rw [when, if_neg (mask_level.mpr h2)]
        rfl
      · rw [hmax]
        exact Linked.refl hw
    · obtain ⟨m1, hrun, h1⟩ := ensurePtExists_links hw hs rfl hf
      refine ⟨m1, ?_, h1⟩
      have hmask : (2 ^ depth m v - 1) &&& 1 <<< 2 = 0 := by
        by_contra hne
        exact h2 (mask_level.mp hne)
      rw [when, if_pos hmask, hrun]
  obtain ⟨m2, m', hrun2, hrun3, hm, hwrites⟩ := install_mapped hs he hf h1
  have hassert {c : Prop} [Decidable c] (hc : c) : assert c m = .ok () m := by
    rw [assert, if_pos hc]
    rfl
  refine ⟨m', ?_, hm, hwrites1.trans hwrites⟩
  rw [mapPage, bind_ok (hassert hv), bind_ok (hassert hp), bind_ok (ptes_eq hw.tree.self),
    bind_ok hrun1, bind_ok hrun2, bind_ok hrun3]
  rfl

theorem mapPage_maps (hw : WellFormed m) (hv : v % 4096 = 0) (hp : p % 4096 = 0) : ∃ m',
    mapPage v p flags m = .ok () m' ∧ Mapped m m' v (p ||| flags) := by
  obtain ⟨m', hrun, hm, -⟩ := mapPage_writes hs he hf hw hv hp
  exact ⟨m', hrun, hm⟩

end mapPage

-- the four entries a walk goes through, as the hardware sees them
def walkEntries (m : Machine) (a : Word) : Option (List Word) :=
  [0, 1, 2, 3].mapM fun k : Fin 4 => seen m ((indices a).take k) (slot a k)

section walks
variable {m m' : Machine} {a v e : Word}

theorem mapM_of_none {α β : Type} {f : α → Option β} {a : α} {as : List α} (ha : a ∈ as)
    (h : f a = none) : as.mapM f = none := by
  induction as with
  | nil => cases ha
  | cons b as ih =>
    rw [List.mapM_cons]
    rcases List.mem_cons.mp ha with rfl | ha
    · rw [h]
      rfl
    · rw [ih ha]
      cases f b <;> rfl

theorem walkEntries_of_none {k : Fin 4} (h : seen m ((indices a).take k) (slot a k) = none) :
    walkEntries m a = none :=
  mapM_of_none (a := k) (by match k with | 0 | 1 | 2 | 3 => simp) h

theorem walk_of_entries (hcan : canonical a) :
    walk m a = (seen m ((indices a).take 3) (slot a 3)).map fun e => (frameOf e, index a 3) := by
  have htable := tableAt_concat (m := m) ((indices a).take 3) (slot a 3)
  rw [indices_take_four] at htable
  rw [walk, if_pos hcan, htable, Option.map_map]
  rfl

theorem page_of_indices (ha : canonical a) (hv : canonical v) (h : indices a = indices v) :
    a >>> 12 = v >>> 12 := by
  have h := h
  simp only [indices, List.cons.injEq, and_true] at h
  obtain ⟨h39, h30, h21, h12⟩ := h
  have hbit {s i : Nat} (hs : index a s = index v s) (hsi : s ≤ i) (hi : i < s + 9) :
      a.getLsbD i = v.getLsbD i := by
    have := congrArg (fun b => b.getLsbD (i - s)) hs
    simp only [index, BitVec.getLsbD_extractLsb', show i - s < 9 by omega, decide_true,
      Bool.true_and, show s + (i - s) = i by omega] at this
    exact this
  have hlow (i : Nat) (h1 : 12 ≤ i) (h2 : i < 48) : a.getLsbD i = v.getLsbD i := by
    by_cases c1 : i < 21
    · exact hbit h12 h1 c1
    · by_cases c2 : i < 30
      · exact hbit h21 (by omega) c2
      · by_cases c3 : i < 39
        · exact hbit h30 (by omega) c3
        · exact hbit h39 (by omega) h2
  refine BitVec.eq_of_getLsbD_eq fun i hi => ?_
  rw [BitVec.getLsbD_ushiftRight, BitVec.getLsbD_ushiftRight]
  by_cases h48 : 12 + i < 48
  · exact hlow _ (by omega) h48
  · by_cases h64 : 12 + i < 64
    · rw [(canonical_iff a).mp ha _ (by omega) h64, (canonical_iff v).mp hv _ (by omega) h64,
        hlow 47 (by decide) (by decide)]
    · rw [BitVec.getLsbD_of_ge _ _ (by omega), BitVec.getLsbD_of_ge _ _ (by omega)]

end walks

section others
variable {m m' : Machine} {v w e : Word} (h : Mapped m m' v e) (hsw : index w 39 ≠ pgSelfIndex)
  (hne : indices w ≠ indices v)
include h hsw hne

theorem Mapped.seen_other (k : Fin 4) : Pages.seen m' ((indices w).take k) (slot w k) =
    if depth m v ≤ k ∧ (indices w).take (k + 1) = (indices v).take (k + 1) then
      view (tableEntry (m.frames (m.calls + (k - depth m v))))
    else Pages.seen m ((indices w).take k) (slot w k) := by
  have hlen : ((indices w).take k).length = k := length_take (by omega)
  rw [h.seen _ _ (outside_take hsw k) (by omega), ← indices_take_succ, hlen, if_neg]
  intro he
  have hk : k.val + 1 = 4 := by
    have := congrArg List.length he
    rwa [length_take (by omega)] at this
  rw [hk] at he
  exact hne he

theorem Mapped.walkEntries_other : walkEntries m' w = walkEntries m w := by
  have hlast := h.seen_other hsw hne 3
  rw [if_neg fun hc => hne hc.2] at hlast
  cases h3 : Pages.seen m ((indices w).take (3 : Fin 4)) (slot w 3) with
  | none => rw [walkEntries_of_none h3, walkEntries_of_none (hlast.trans h3)]
  | some e' =>
    have hdepth : 3 < depth m w := (seen_isSome_iff 3).mp (by rw [h3]; rfl)
    refine congrArg (List.mapM · _) (funext fun k => ?_)
    rw [h.seen_other hsw hne k, if_neg]
    rintro ⟨hd, hpath⟩
    have hsome := (seen_isSome_iff (m := m) (a := w) k).mpr (by omega)
    obtain ⟨htake, hslot⟩ : (indices w).take k = (indices v).take k ∧ slot w k = slot v k := by
      rw [indices_take_succ, indices_take_succ] at hpath
      simpa using List.append_inj' hpath rfl
    rw [htake, hslot, seen_isSome_iff] at hsome
    omega

theorem Mapped.walk_other (hcan : canonical w) : walk m' w = walk m w := by
  rw [walk_of_entries hcan, walk_of_entries hcan]
  have hlast := h.seen_other hsw hne 3
  rw [if_neg fun hc => hne hc.2] at hlast
  exact congrArg (Option.map _) hlast

end others

theorem Mapped.tableAt_eq {m m' : Machine} {v e : Word} (h : Mapped m m' v e)
    (hf : FreshFrames m (3 - depth m v)) {q : List Index} (hq : Outside q) (hql : q.length ≤ 3) :
    tableAt m' q = if depth m v < q.length ∧ q = (indices v).take q.length then
      some (m.frames (m.calls + (q.length - 1 - depth m v))) else tableAt m q := by
  cases q using List.reverseRecOn with
  | nil =>
    rw [if_neg (by simp), tableAt, tableAt, h.cr3]
    rfl
  | append_singleton q j =>
    have hlen : (q ++ [j]).length = q.length + 1 := by simp
    rw [hlen] at hql ⊢
    have hleaf : q ++ [j] ≠ indices v := fun he => by
      have := congrArg List.length he
      rw [hlen] at this
      change q.length + 1 = 4 at this
      omega
    rw [tableAt_concat, h.seen q j hq.of_concat (by omega), if_neg hleaf]
    by_cases hnew : depth m v ≤ q.length ∧ q ++ [j] = (indices v).take (q.length + 1)
    · obtain ⟨e', he', hfe⟩ := view_tableEntry (hf.aligned (q.length - depth m v) (by omega))
      rw [if_pos hnew, if_pos ⟨by omega, hnew.2⟩, he', Option.map_some, hfe]
      rfl
    · rw [if_neg hnew, if_neg fun hc => hnew ⟨by omega, hc.2⟩, tableAt_concat]

theorem map_page_installs (m : Machine) (hw : WellFormed m) (v p flags : Word)
    (hv : v % 4096 = 0) (hcan : canonical v) (hs : index v 39 ≠ pgSelfIndex)
    (hp : p % 4096 = 0) (hp52 : p.toNat < 2 ^ 52) (hpresent : flags &&& pgPresent ≠ 0)
    (hbits : flags &&& (physAddrMask ||| pgRefcountMask) = 0)
    (hf : FreshFrames m (3 - depth m v)) :
    ∃ m', mapPage v p flags m = .ok () m' ∧ WellFormed m' ∧
      walk m' v = some (p, index v 3) ∧
      seen m' ((indices v).take 3) (slot v 3) = some (p ||| flags) ∧
      (∀ w, canonical w → index w 39 ≠ pgSelfIndex → w >>> 12 ≠ v >>> 12 →
        walk m' w = walk m w ∧ walkEntries m' w = walkEntries m w) ∧
      m'.calls = m.calls + (3 - depth m v) ∧ m'.freed = m.freed ∧
      (∀ q, Outside q → q.length ≤ 3 → tableAt m' q =
        if depth m v < q.length ∧ q = (indices v).take q.length then
          some (m.frames (m.calls + (q.length - 1 - depth m v))) else tableAt m q) ∧
      ∀ q i f, Outside (q ++ [i]) → q.length < 3 → tableAt m' q = some f →
        present (m'.mem f i) = true → refcount (m'.mem f i) ≤ 512 := by
  have hphys : frameOf p = p := frameOf_aligned ⟨hp, hp52⟩
  have hpf : present flags = true := by simpa [present] using hpresent
  have hand : frameOf flags = 0 ∧ flags &&& pgRefcountMask = 0 := by
    rw [BitVec.and_or_distrib_left] at hbits
    exact BitVec.or_eq_zero_iff.mp hbits
  have he : present (p ||| flags) = true := by rw [present_or, hpf, Bool.or_true]
  obtain ⟨m', hrun, hm⟩ := mapPage_maps hs he hf hw hv hp
  have hleaf : seen m' ((indices v).take 3) (slot v 3) = some (p ||| flags) := by
    rw [hm.seen _ _ (outside_take hs 3) (length_take (by omega)).le, if_pos (indices_take_four v),
      view_of_present he, and_not_of_and]
    rw [BitVec.and_or_distrib_right, frame_refcount_zero hphys, hand.2]
    exact BitVec.or_zero
  refine ⟨m', hrun, hm.wf, ?_, hleaf, fun w hw hsw hne => ?_, hm.calls, hm.freed,
    fun q hq hql => hm.tableAt_eq hf hq hql, fun q i f hq hql hf hpres => ?_⟩
  · rw [walk_of_entries hcan, hleaf, Option.map_some, frameOf_or, hphys, hand.1]
    exact congrArg (fun f => some (f, index v 3)) BitVec.or_zero
  · have hindices : indices w ≠ indices v := fun h => hne (page_of_indices hw hcan h)
    exact ⟨hm.walk_other hsw hindices hw, hm.walkEntries_other hsw hindices⟩
  · have hchild : child (m'.mem f i) = some (frameOf (m'.mem f i)) :=
      child_eq_some.mpr ⟨hpres, rfl⟩
    rw [hm.wf.refcount_eq hq hql hf hchild]
    exact presentCount_le _

theorem FreshFrames.mono {m : Machine} {a b : Nat} (h : FreshFrames m b) (hab : a ≤ b) :
    FreshFrames m a where
  aligned t ht := h.aligned t (by omega)
  nonzero t ht := h.nonzero t (by omega)
  distinct s t hst ht := h.distinct s t hst (by omega)
  unused t ht := h.unused t (by omega)

theorem twoPages_fresh : FreshFrames twoPages 3 where
  aligned t ht := by interval_cases t <;> exact ⟨by decide, by decide⟩
  nonzero t ht := by interval_cases t <;> decide
  distinct s t hst ht := by interval_cases t <;> interval_cases s <;> decide
  unused t ht q hq hql h := by
    rcases lowPages_tableAt hq hql h with ⟨-, h⟩ | ⟨-, h⟩ | ⟨-, h⟩ | ⟨-, h⟩ <;>
    interval_cases t <;> exact absurd h (by decide)

theorem map_page_installs_sample : ∃ m', mapPage 0x400000 0x7000 (pgPresent ||| pgRw) twoPages =
      .ok () m' ∧ walk m' 0x400000 = some (0x7000, 0) ∧ walk m' 0x1000 = some (0x6000, 0) := by
  obtain ⟨m', hrun, -, hwalk, -, hothers, -⟩ := map_page_installs twoPages twoPages_wellFormed
    0x400000 0x7000 (pgPresent ||| pgRw) (by decide) (by decide) (by decide) (by decide) (by decide)
    (by decide) (by decide) (twoPages_fresh.mono (by omega))
  exact ⟨m', hrun, hwalk, (hothers 0x1000 (by decide) (by decide) (by decide)).1.trans (by decide)⟩

end Lasagne.Pages
