import Mathlib
import Lasagne.Pages.Ledger

namespace Lasagne.Pages
open RadixTree StateRun

def leaf (m : Machine) (v : Word) : Option Word := seen m ((indices v).take 3) (slot v 3)

def grantedFlags (flags : Word) : Word :=
  convertFlags flags &&& ~~~(physAddrMask ||| pgLazy) ||| pgRw

-- the entry of a page as map_range writes it, or as the fault handler leaves it
def RangeEntry (m : Machine) (flags e : Word) : Prop := ∃ p, Aligned p ∧
  (e = p ||| convertFlags flags ∧ (p = m.zeroPage ↔ flags &&& mapImmediate = 0) ∨
    convertFlags flags &&& pgLazy ≠ 0 ∧ e = p ||| grantedFlags flags ∧ p ≠ m.zeroPage)

def firstPages (start : Word) (j : Nat) (q : List Index) : Prop :=
  ∃ k < j, q = indices (pageAt start k)

-- m' is m with the first j pages of the range mapped
structure RangeMapped (m m' : Machine) (start flags : Word) (j : Nat) (owner : Nat → List Index) :
    Prop extends Ledger m m' (firstPages start j) owner where
  wf : WellFormed m'
  tables : ∀ q, Outside q → q.length ≤ 3 → tableAt m q = none →
    ((tableAt m' q).isSome = true ↔ ∃ k < j, q <+: indices (pageAt start k))
  others : ∀ q, Outside q → q.length = 4 → (∀ k < j, q ≠ indices (pageAt start k)) →
    tableAt m' q = tableAt m q
  otherLeaves : ∀ v, index v 39 ≠ pgSelfIndex → (∀ k < j, indices v ≠ indices (pageAt start k)) →
    leaf m' v = leaf m v
  leaves : ∀ k < j, ∃ e, leaf m' (pageAt start k) = some e ∧ RangeEntry m flags e

def Plain (m m' : Machine) (start flags : Word) (j : Nat) : Prop := ∀ k < j,
  (tableAt m' (indices (pageAt start k)) = some m.zeroPage ↔ flags &&& mapImmediate = 0)

def missingTables (m : Machine) (start : Word) (n : Nat) : Finset (List Index) :=
  ((Finset.range n ×ˢ ({1, 2, 3} : Finset Nat)).image fun kl =>
    (indices (pageAt start kl.1)).take kl.2).filter fun q => tableAt m q = none

def framesFor (m : Machine) (start flags : Word) (n : Nat) : Nat :=
  (missingTables m start n).card + if flags &&& mapImmediate ≠ 0 then n else 0

section flags
variable {p flags e : Word}

theorem view_or (hp : Aligned p) (hx : e &&& pgRefcountMask = 0) (he : present e = true) :
    view (p ||| e) = some (p ||| e) := by
  rw [view_of_present (by rw [present_or, he, Bool.or_true]), and_not_of_and]
  rw [BitVec.and_or_distrib_right, frame_refcount_zero (frameOf_aligned hp), hx]
  exact BitVec.or_zero

theorem frameOf_or_aligned (hp : Aligned p) (hx : frameOf e = 0) : frameOf (p ||| e) = p := by
  rw [frameOf_or, frameOf_aligned hp, hx]
  exact BitVec.or_zero

end flags

section paths
variable {m m' : Machine} {v w e : Word} {q : List Index}

theorem tableAt_leaf (m : Machine) (v : Word) : tableAt m (indices v) = (leaf m v).map frameOf := by
  rw [leaf, ← tableAt_concat, indices_take_four]

theorem leaf_congr (m : Machine) (h : indices v = indices w) : leaf m v = leaf m w := by
  rw [leaf, leaf, slot, slot]
  simp only [h]

theorem leaf_cases (h : leaf m v = some e) : depth m v = 4 ∧
    ∃ pt, tableAt m ((indices v).take 3) = some pt ∧ view (m.mem pt (slot v 3)) = some e := by
  have hdepth : 3 < depth m v := (seen_isSome_iff 3).mp (by
    change (leaf m v).isSome = true
    rw [h]
    rfl)
  have hle : depth m v ≤ 4 := depth_le
  obtain ⟨pt, hpt, hview⟩ := Option.bind_eq_some_iff.mp h
  exact ⟨by omega, pt, hpt, hview⟩

theorem ne_of_length {q r : List Index} (h : q.length ≠ r.length) : q ≠ r := fun he => h (he ▸ rfl)

theorem Mapped.tableAt_full (h : Mapped m m' v e) (hf : FreshFrames m (3 - depth m v))
    (he : present e = true) (hq : Outside q) (hql : q.length ≤ 4) :
    tableAt m' q = if q = indices v then some (frameOf e)
      else if depth m v < q.length ∧ q = (indices v).take q.length then
        some (m.frames (m.calls + (q.length - 1 - depth m v))) else tableAt m q := by
  by_cases hq3 : q.length ≤ 3
  · rw [if_neg (ne_of_length (by change _ ≠ 4; omega)), h.tableAt_eq hf hq hq3]
  · cases q using List.reverseRecOn with
    | nil => simp at hq3
    | append_singleton q j =>
      have hlen : (q ++ [j]).length = q.length + 1 := by simp
      have hq3' : q.length = 3 := by omega
      have htake (hpath : q ++ [j] ≠ indices v) : ¬ q ++ [j] = (indices v).take (q.length + 1) := by
        rw [hq3']
        exact hpath
      rw [tableAt_concat, h.seen q j hq.of_concat hq3'.le]
      by_cases hpath : q ++ [j] = indices v
      · rw [if_pos hpath, if_pos hpath, frameOf_view, child, if_pos he]
      · rw [if_neg hpath, if_neg hpath, if_neg fun hc => htake hpath hc.2, hlen,
          if_neg fun hc => htake hpath hc.2, tableAt_concat]

theorem Mapped.leaf_eq (h : Mapped m m' v e) (hw : index w 39 ≠ pgSelfIndex) :
    leaf m' w = if indices w = indices v then view e else leaf m w := by
  have hlen : ((indices w).take 3).length = 3 := length_take (by decide)
  rw [leaf, h.seen _ _ (outside_take hw 3) hlen.le, indices_take_four, hlen]
  by_cases hpath : indices w = indices v
  · rw [if_pos hpath, if_pos hpath]
  · rw [if_neg hpath, if_neg hpath, if_neg fun hc => hpath hc.2, leaf]

end paths

theorem mem_missingTables {m : Machine} {start : Word} {n : Nat} {q : List Index} :
    q ∈ missingTables m start n ↔ (∃ k < n, q <+: indices (pageAt start k)) ∧ 0 < q.length ∧
      q.length ≤ 3 ∧ tableAt m q = none := by
  rw [missingTables, Finset.mem_filter, Finset.mem_image]
  constructor
  · rintro ⟨⟨⟨k, l⟩, hkl, rfl⟩, hnone⟩
    obtain ⟨hk, hl⟩ := Finset.mem_product.mp hkl
    have hl : l = 1 ∨ l = 2 ∨ l = 3 := by simpa using hl
    refine ⟨⟨k, Finset.mem_range.mp hk, List.take_prefix _ _⟩, ?_, length_take_le (by omega), hnone⟩
    rw [length_take (by omega)]
    omega
  · rintro ⟨⟨k, hk, hpre⟩, hpos, hl, hnone⟩
    refine ⟨⟨(k, q.length), Finset.mem_product.mpr ⟨Finset.mem_range.mpr hk, ?_⟩,
      (List.prefix_iff_eq_take.mp hpre).symm⟩, hnone⟩
    have : q.length = 1 ∨ q.length = 2 ∨ q.length = 3 := by omega
    simpa using this

namespace RangeMapped
variable {m m1 m2 : Machine} {start size flags : Word} {j n : Nat} {owner : Nat → List Index}

theorem refl (hw : WellFormed m) : RangeMapped m m start flags 0 fun _ => [] where
  toLedger := Ledger.refl m fun _ hq => by
    obtain ⟨k, hk, -⟩ := hq
    exact Nat.not_lt_zero k hk
  wf := hw
  tables q _ _ hnone := by simp [hnone]
  others _ _ _ _ := rfl
  otherLeaves _ _ _ := rfl
  leaves k hk := absurd hk (Nat.not_lt_zero k)

variable (h : RangeMapped m m1 start flags j owner) (hr : PageRange start size)
  (hj : j < pageCount size)
include h hr hj

theorem owner_ne {t : Nat} (ht : m.calls ≤ t) (htc : t < m1.calls) :
    owner t ≠ indices (pageAt start j) := fun he => by
  have hnot (k : Nat) (hk : k < j) : indices (pageAt start j) ≠ indices (pageAt start k) := fun hp => by
    have := hr.indices_inj hj (hk.trans hj) hp
    omega
  obtain ⟨-, -, hnew, hf⟩ := h.placed t ht htc
  rw [he] at hnew hf
  rcases hnew with hnone | ⟨-, k, hk, hpath⟩
  · rw [h.others _ (hr.path_outside hj) rfl hnot, hnone] at hf
    exact absurd hf (by simp)
  · exact hnot k hk hpath

theorem missing_card : (missingTables m start (j + 1)).card =
    (missingTables m start j).card + (3 - depth m1 (pageAt start j)) := by
  have hout (l : Nat) : Outside ((indices (pageAt start j)).take l) := outside_take (hr.outside j hj) l
  have hunion : missingTables m start (j + 1) = missingTables m start j ∪
      (Finset.Ioc (depth m1 (pageAt start j)) 3).image fun l => (indices (pageAt start j)).take l := by
    ext q
    rw [Finset.mem_union, mem_missingTables, mem_missingTables, Finset.mem_image]
    constructor
    · rintro ⟨⟨k, hk, hpre⟩, hpos, hl, hnone⟩
      by_cases hold : ∃ k < j, q <+: indices (pageAt start k)
      · exact .inl ⟨hold, hpos, hl, hnone⟩
      · obtain rfl : k = j := by
          by_contra hne
          exact hold ⟨k, by omega, hpre⟩
        have hq := List.prefix_iff_eq_take.mp hpre
        refine .inr ⟨q.length, Finset.mem_Ioc.mpr ⟨?_, hl⟩, hq.symm⟩
        by_contra hle
        refine hold ((h.tables q (hq ▸ hout _) hl hnone).mp ?_)
        rw [hq, tableAt_isSome_iff (by omega)]
        omega
    · rintro (⟨⟨k, hk, hpre⟩, hrest⟩ | ⟨l, hl, rfl⟩)
      · exact ⟨⟨k, by omega, hpre⟩, hrest⟩
      · obtain ⟨hdl, hl3⟩ := Finset.mem_Ioc.mp hl
        refine ⟨⟨j, by omega, List.take_prefix _ _⟩, ?_, length_take_le hl3, ?_⟩
        · rw [length_take (by omega)]
          omega
        · refine h.before (hout l) (by rw [length_take (by omega)]; omega) ?_
          refine Option.eq_none_iff_forall_ne_some.mpr fun f hf => ?_
          have := (tableAt_isSome_iff (by omega)).mp (Option.isSome_iff_exists.mpr ⟨f, hf⟩)
          omega
  have hdisjoint : Disjoint (missingTables m start j)
      ((Finset.Ioc (depth m1 (pageAt start j)) 3).image fun l => (indices (pageAt start j)).take l) := by
    refine Finset.disjoint_left.mpr fun q hq himage => ?_
    obtain ⟨hpre, -, hl, hnone⟩ := mem_missingTables.mp hq
    obtain ⟨l, hl', rfl⟩ := Finset.mem_image.mp himage
    obtain ⟨hdl, hl3⟩ := Finset.mem_Ioc.mp hl'
    have := (tableAt_isSome_iff (by omega)).mp ((h.tables _ (hout l) hl hnone).mpr hpre)
    omega
  rw [hunion, Finset.card_union_of_disjoint hdisjoint, Finset.card_image_of_injOn, Nat.card_Ioc]
  intro l hl l' hl' he
  have hlen := congrArg List.length he
  have hle := Finset.mem_Ioc.mp hl
  have hle' := Finset.mem_Ioc.mp hl'
  dsimp only at hlen
  rwa [length_take (by omega), length_take (by omega)] at hlen

variable (hs : Supply m n) {p : Word} {c : Nat} (hp : Aligned p)
  (hfetch : flags &&& mapImmediate ≠ 0 ∧ c = 1 ∧ p = m.frames m1.calls ∨
    flags &&& mapImmediate = 0 ∧ c = 0 ∧ p = m.zeroPage)
  (hn : m1.calls + c + (3 - depth m1 (pageAt start j)) ≤ m.calls + n)
  (hm : Mapped (m1.fetched c) m2 (pageAt start j) (p ||| convertFlags flags))
include hs hp hn hm

omit hr hj in
theorem tableAt_step {q : List Index} (hq : Outside q) (hql : q.length ≤ 4) :
    tableAt m2 q = if q = indices (pageAt start j) then some p
      else if depth m1 (pageAt start j) < q.length ∧ q = (indices (pageAt start j)).take q.length then
        some (m.frames (m1.calls + c + (q.length - 1 - depth m1 (pageAt start j))))
      else tableAt m1 q := by
  have hpresent : present (p ||| convertFlags flags) = true := by
    rw [present_or, present_convertFlags, Bool.or_true]
  have hfresh : FreshFrames (m1.fetched c) (3 - depth m1 (pageAt start j)) := h.toLedger.fresh hs hn
  rw [hm.tableAt_full hfresh hpresent hq hql, frameOf_or_aligned hp (frameOf_convertFlags flags),
    depth_fetched, tableAt_fetched, ← h.frames]
  rfl

include hfetch

theorem ledger_step : Ledger m m2 (firstPages start (j + 1)) fun t => if t < m1.calls then owner t
    else if t < m1.calls + c then indices (pageAt start j)
    else (indices (pageAt start j)).take (t - (m1.calls + c) + depth m1 (pageAt start j) + 1) := by
  have hcalls : m2.calls = m1.calls + c + (3 - depth m1 (pageAt start j)) := hm.calls
  have hout (l : Nat) : Outside ((indices (pageAt start j)).take l) := outside_take (hr.outside j hj) l
  have hmissing {l : Nat} (hdl : depth m1 (pageAt start j) < l) (hl : l ≤ 3) :
      tableAt m1 ((indices (pageAt start j)).take l) = none := by
    refine Option.eq_none_iff_forall_ne_some.mpr fun f hf => ?_
    have := (tableAt_isSome_iff (by omega)).mp (Option.isSome_iff_exists.mpr ⟨f, hf⟩)
    omega
  have hnext : New m (firstPages start (j + 1)) (indices (pageAt start j)) :=
    .inr ⟨rfl, j, Nat.lt_succ_self j, rfl⟩
  refine h.toLedger.step _ (by omega) hm.frames hm.zeroPage hm.freed
    (fun q hq => ?_) (fun t ht htc => ?_) fun q hq hql => ?_
  · obtain ⟨k, hk, hpath⟩ := hq
    exact ⟨k, by omega, hpath⟩
  · by_cases htc1 : t < m1.calls + c
    · have hframe : p = m.frames t := by
        rcases hfetch with ⟨-, hc, hframe⟩ | ⟨-, hc, -⟩
        · rw [hframe, show t = m1.calls by omega]
        · omega
      rw [if_pos htc1, h.tableAt_step hs hp hn hm (hr.path_outside hj) le_rfl, if_pos rfl,
        hframe]
      exact ⟨hr.path_outside hj, le_rfl, hnext, rfl⟩
    · have hlen : ((indices (pageAt start j)).take
          (t - (m1.calls + c) + depth m1 (pageAt start j) + 1)).length =
            t - (m1.calls + c) + depth m1 (pageAt start j) + 1 := length_take (by omega)
      rw [if_neg htc1, h.tableAt_step hs hp hn hm (hout _) (by omega), hlen,
        if_neg (ne_of_length (by rw [hlen]; change _ ≠ 4; omega)), if_pos ⟨by omega, rfl⟩,
        show m1.calls + c + (t - (m1.calls + c) + depth m1 (pageAt start j) + 1 - 1 -
          depth m1 (pageAt start j)) = t by omega]
      exact ⟨hout _, by omega,
        .inl (h.before (hout _) (by omega) (hmissing (by omega) (by omega))), rfl⟩
  · rw [h.tableAt_step hs hp hn hm hq hql]
    by_cases hpath : q = indices (pageAt start j)
    · subst hpath
      rw [if_pos rfl]
      refine .inr ⟨hnext, fun t ht htc => h.owner_ne hr hj ht htc, ?_⟩
      rcases hfetch with ⟨-, hc, -⟩ | ⟨-, -, hzero⟩
      · exact .inr ⟨m1.calls, le_rfl, by omega, if_pos (by omega)⟩
      · exact .inl ⟨rfl, congrArg some hzero⟩
    · by_cases hnew : depth m1 (pageAt start j) < q.length ∧
          q = (indices (pageAt start j)).take q.length
      · have hq3 : q.length ≤ 3 := by
          by_contra hlt
          exact hpath (hnew.2.trans (by rw [show q.length = 4 by omega]; rfl))
        have hq1 : tableAt m1 q = none := by
          rw [hnew.2]
          exact hmissing hnew.1 hq3
        refine .inr ⟨.inl (h.before hq hq3 hq1), fun t ht htc he => ?_, .inr ⟨m1.calls + c +
          (q.length - 1 - depth m1 (pageAt start j)), by omega, by omega, ?_⟩⟩
        · have hf := (h.placed t ht htc).2.2.2
          rw [he, hq1] at hf
          exact absurd hf (by simp)
        · rw [if_neg (by omega), show m1.calls + c + (q.length - 1 - depth m1 (pageAt start j)) -
            (m1.calls + c) + depth m1 (pageAt start j) + 1 = q.length by omega]
          exact hnew.2.symm
      · rw [if_neg hpath, if_neg hnew]
        refine .inl ⟨rfl, fun hq => ?_⟩
        obtain ⟨k, hk, hqk⟩ := hq
        refine ⟨k, ?_, hqk⟩
        by_contra hkj
        obtain rfl : k = j := by omega
        exact hpath hqk

theorem step : ∃ owner', RangeMapped m m2 start flags (j + 1) owner' := by
  have htable := fun q hq hql => h.tableAt_step (q := q) hs hp hn hm hq hql
  refine ⟨_, {
    toLedger := h.ledger_step hr hj hs hp hfetch hn hm
    wf := hm.wf
    tables := fun q hq hql hnone => ?_
    others := fun q hq hql hne => ?_
    otherLeaves := fun v hv hne => ?_
    leaves := fun k hk => ?_ }⟩
  · rw [htable q hq (by omega), if_neg (ne_of_length (by change _ ≠ 4; omega))]
    by_cases hnew : depth m1 (pageAt start j) < q.length ∧
        q = (indices (pageAt start j)).take q.length
    · rw [if_pos hnew]
      refine ⟨fun _ => ⟨j, by omega, ?_⟩, fun _ => rfl⟩
      rw [hnew.2]
      exact List.take_prefix _ _
    · rw [if_neg hnew, h.tables q hq hql hnone]
      constructor
      · rintro ⟨k, hk, hpre⟩
        exact ⟨k, by omega, hpre⟩
      · rintro ⟨k, hk, hpre⟩
        by_cases hkj : k < j
        · exact ⟨k, hkj, hpre⟩
        · obtain rfl : k = j := by omega
          have hpath := List.prefix_iff_eq_take.mp hpre
          have hle : q.length ≤ depth m1 (pageAt start k) := by
            by_contra hlt
            exact hnew ⟨by omega, hpath⟩
          refine (h.tables q hq hql hnone).mp ?_
          rw [hpath, tableAt_isSome_iff (by omega)]
          exact hle
  · rw [htable q hq (by omega), if_neg (hne j (by omega)), if_neg,
      h.others q hq hql fun k hk => hne k (by omega)]
    rintro ⟨-, hpath⟩
    exact hne j (by omega) (hpath.trans (by rw [hql]; rfl))
  · rw [hm.leaf_eq hv, if_neg (hne j (by omega))]
    exact h.otherLeaves v hv fun k hk => hne k (by omega)
  · rw [hm.leaf_eq (hr.outside k (by omega))]
    by_cases hkj : k < j
    · rw [if_neg fun he => ?_]
      · exact h.leaves k hkj
      · have := hr.indices_inj (by omega) hj he
        omega
    · obtain rfl : k = j := by omega
      rw [if_pos rfl, view_or hp (convertFlags_refcount flags) (present_convertFlags flags)]
      refine ⟨_, rfl, p, hp, .inl ⟨rfl, ?_⟩⟩
      rcases hfetch with ⟨himm, hc, hframe⟩ | ⟨himm, -, hzero⟩
      · have hne := hs.frame_zero h.calls (by omega)
        exact ⟨fun hz => absurd (hframe.symm.trans hz) hne, fun hz => absurd hz himm⟩
      · exact ⟨fun _ => himm, fun _ => hzero⟩

theorem plain_step (hplain : Plain m m1 start flags j) : Plain m m2 start flags (j + 1) := by
  intro k hk
  rw [h.tableAt_step hs hp hn hm (hr.path_outside (by omega)) le_rfl]
  by_cases hkj : k = j
  · subst hkj
    rw [if_pos rfl, Option.some_inj]
    rcases hfetch with ⟨himm, hc, hframe⟩ | ⟨himm, -, hzero⟩
    · have hne := hs.frame_zero h.calls (by omega)
      exact ⟨fun hz => absurd (hframe.symm.trans hz) hne, fun hz => absurd hz himm⟩
    · exact ⟨fun _ => himm, fun _ => hzero⟩
  · have hpath : indices (pageAt start k) ≠ indices (pageAt start j) := fun he =>
      hkj (hr.indices_inj (by omega) hj he)
    rw [if_neg hpath, if_neg fun hc => hpath hc.2]
    exact hplain k (by omega)

end RangeMapped

section framesFor
variable {m m1 : Machine} {start size flags : Word} {j k : Nat} {owner : Nat → List Index}

theorem framesFor_mono (h : j ≤ k) : framesFor m start flags j ≤ framesFor m start flags k := by
  have hsub : missingTables m start j ⊆ missingTables m start k := fun q hq => by
    obtain ⟨⟨i, hi, hpre⟩, hrest⟩ := mem_missingTables.mp hq
    exact mem_missingTables.mpr ⟨⟨i, by omega, hpre⟩, hrest⟩
  have := Finset.card_le_card hsub
  rw [framesFor, framesFor]
  split_ifs <;> omega

theorem RangeMapped.framesFor_succ (h : RangeMapped m m1 start flags j owner)
    (hr : PageRange start size) (hj : j < pageCount size) :
    framesFor m start flags (j + 1) = framesFor m start flags j +
      (if flags &&& mapImmediate ≠ 0 then 1 else 0) + (3 - depth m1 (pageAt start j)) := by
  rw [framesFor, framesFor, h.missing_card hr hj]
  split_ifs <;> omega

end framesFor

section mapRange
variable {m : Machine} {start size flags : Word} {n : Nat} (hr : PageRange start size)
  (hs : Supply m n) (hn : framesFor m start flags (pageCount size) ≤ n)
include hr hs hn

theorem mapLoop_page {m1 : Machine} {j : Nat} {owner : Nat → List Index} {physical : Word}
    (h : RangeMapped m m1 start flags j owner) (hj : j < pageCount size)
    (hcalls : m1.calls = m.calls + framesFor m start flags j)
    (hplain : Plain m m1 start flags j)
    (hlazy : flags &&& mapImmediate = 0 → physical = m.zeroPage) : ∃ p m2 m3 owner',
      (if flags &&& mapImmediate ≠ 0 then getFrame else pure physical : Kernel Word) m1 = .ok p m2 ∧
      mapPage (pageAt start j) p (convertFlags flags) m2 = .ok () m3 ∧
      RangeMapped m m3 start flags (j + 1) owner' ∧ TableWrites m1 m3 ∧
      m3.calls = m.calls + framesFor m start flags (j + 1) ∧ Plain m m3 start flags (j + 1) ∧
      (flags &&& mapImmediate = 0 → p = m.zeroPage) := by
  have hsucc := h.framesFor_succ hr hj
  have hmono : framesFor m start flags (j + 1) ≤ n := (framesFor_mono (by omega)).trans hn
  obtain ⟨p, c, hrun, hp, hc, hfetch⟩ : ∃ p c,
      (if flags &&& mapImmediate ≠ 0 then getFrame else pure physical : Kernel Word) m1 =
        .ok p (m1.fetched c) ∧ Aligned p ∧ c = (if flags &&& mapImmediate ≠ 0 then 1 else 0) ∧
      (flags &&& mapImmediate ≠ 0 ∧ c = 1 ∧ p = m.frames m1.calls ∨
        flags &&& mapImmediate = 0 ∧ c = 0 ∧ p = m.zeroPage) := by
    by_cases himm : flags &&& mapImmediate = 0
    · refine ⟨physical, 0, ?_, hlazy himm ▸ hs.zeroAligned, ?_, .inr ⟨himm, rfl, hlazy himm⟩⟩
      · rw [if_neg (not_not.mpr himm)]
        rfl
      · rw [if_neg (not_not.mpr himm)]
    · rw [if_pos himm] at hsucc
      refine ⟨m1.frames m1.calls, 1, ?_, ?_, ?_, .inl ⟨himm, rfl, by rw [h.frames]⟩⟩
      · rw [if_pos himm]
        rfl
      · rw [h.frames]
        exact hs.frame_aligned h.calls (by omega)
      · rw [if_pos himm]
  rw [← hc] at hsucc
  have hneed : m1.calls + c + (3 - depth m1 (pageAt start j)) ≤ m.calls + n := by omega
  have hpresent : present (p ||| convertFlags flags) = true := by
    rw [present_or, present_convertFlags, Bool.or_true]
  obtain ⟨m3, hmap, hm, hwrites⟩ := mapPage_writes (m := m1.fetched c) (hr.outside j hj) hpresent
    (h.toLedger.fresh hs hneed) ⟨h.wf.tree, h.wf.counted⟩ (hr.pageAt_aligned j) hp.1
  obtain ⟨owner', hstep⟩ := h.step hr hj hs hp hfetch hneed hm
  refine ⟨p, _, m3, owner', hrun, hmap, hstep, ⟨hwrites.tables, hwrites.rest⟩, ?_,
    h.plain_step hr hj hs hp hfetch hneed hm hplain, fun himm => ?_⟩
  · have : m3.calls = m1.calls + c + (3 - depth m1 (pageAt start j)) := hm.calls
    omega
  · exact (hfetch.resolve_left fun hne => hne.1 himm).2.2

theorem mapLoop_maps (fuel : Nat) {m1 : Machine} {j : Nat} {owner : Nat → List Index}
    {physical : Word} (h : RangeMapped m m1 start flags j owner) (hj : j ≤ pageCount size)
    (hfuel : pageCount size - j < fuel) (hcalls : m1.calls = m.calls + framesFor m start flags j)
    (hplain : Plain m m1 start flags j)
    (hlazy : flags &&& mapImmediate = 0 → physical = m.zeroPage) : ∃ m2 owner',
      mapLoop start size flags (convertFlags flags) fuel (BitVec.ofNat 64 (4096 * j)) physical m1 =
        .ok () m2 ∧ RangeMapped m m2 start flags (pageCount size) owner' ∧ TableWrites m1 m2 ∧
      m2.calls = m.calls + framesFor m start flags (pageCount size) ∧
      Plain m m2 start flags (pageCount size) := by
  induction fuel generalizing m1 j owner physical with
  | zero => exact absurd hfuel (Nat.not_lt_zero _)
  | succ fuel ih =>
    rw [mapLoop_eq hr hj]
    by_cases hlt : j < pageCount size
    · obtain ⟨p, m2, m3, owner', hfetch, hmap, hnext, hwrites, hcalls', hplain', hlazy'⟩ :=
        mapLoop_page hr hs hn h hlt hcalls hplain hlazy
      obtain ⟨m4, owner'', hrest, hm, hwrites', hcalls'', hplain''⟩ :=
        ih hnext (by omega) (by omega) hcalls' hplain' hlazy'
      rw [if_pos hlt, bind_ok hfetch, bind_ok hmap]
      exact ⟨m4, owner'', hrest, hm, hwrites.trans hwrites', hcalls'', hplain''⟩
    · obtain rfl : j = pageCount size := by omega
      rw [if_neg hlt]
      exact ⟨m1, owner, rfl, h, .refl m1, hcalls, hplain⟩

theorem mapRange_writes (hw : WellFormed m) {fuel : Nat} (hfuel : pageCount size < fuel) :
    ∃ m' owner, mapRange fuel start size flags m = .ok () m' ∧
      RangeMapped m m' start flags (pageCount size) owner ∧ TableWrites m m' ∧
      m'.calls = m.calls + framesFor m start flags (pageCount size) ∧
      Plain m m' start flags (pageCount size) := by
  have hnone : framesFor m start flags 0 = 0 := by
    rw [framesFor, Finset.card_eq_zero.mpr (Finset.eq_empty_of_forall_notMem fun q hq => by
      obtain ⟨⟨k, hk, -⟩, -⟩ := mem_missingTables.mp hq
      exact absurd hk (Nat.not_lt_zero k))]
    split_ifs <;> rfl
  exact mapLoop_maps hr hs hn fuel (RangeMapped.refl hw) (Nat.zero_le _) (by omega)
    (by rw [hnone, Nat.add_zero]) (fun k hk => absurd hk (Nat.not_lt_zero k)) fun _ => rfl

theorem mapRange_maps (hw : WellFormed m) {fuel : Nat} (hfuel : pageCount size < fuel) :
    ∃ m' owner, mapRange fuel start size flags m = .ok () m' ∧
      RangeMapped m m' start flags (pageCount size) owner ∧
      m'.calls = m.calls + framesFor m start flags (pageCount size) := by
  obtain ⟨m', owner, hrun, h, -, hcalls, -⟩ := mapRange_writes hr hs hn hw hfuel
  exact ⟨m', owner, hrun, h, hcalls⟩

end mapRange

end Lasagne.Pages
