import Mathlib
import Lasagne.Buddy.Safety

namespace Lasagne.Buddy
open ByteMemory CInt SplitTree Bitmap

structure WellFormed (r : Region) (h : Heap) (k : Labels) (lists : Nat → List Nat) : Prop where
  represents : Represents r h k lists
  heads : Heads r (fun _ => True) h.mem lists

def buddyAt (l i n : Nat) : Nat := (i / 2 ^ (l - n)) ^^^ 1

section merge
variable {r : Region} {h : Heap} {k : Labels} {lists : Nat → List Nat} {l i : Nat}

theorem div_two_div (i : Nat) {l n : Nat} (h : n ≤ l) :
    i / 2 / 2 ^ (l - n) = i / 2 ^ (l + 1 - n) := by
  rw [Nat.div_div_eq_div_mul, ← pow_succ', Nat.succ_sub h]

theorem buddyAt_succ (i : Nat) {l n : Nat} (h : n ≤ l) :
    buddyAt l (i / 2) n = buddyAt (l + 1) i n := by
  rw [buddyAt, buddyAt, div_two_div i h]

theorem buddyAt_self (l i : Nat) : buddyAt l i l = i ^^^ 1 := by
  simp [buddyAt]

theorem stopLevel_le (k : Labels) (l i : Nat) : stopLevel k l i ≤ l := by
  induction l generalizing i with
  | zero => exact le_rfl
  | succ l ih =>
    rw [stopLevel]
    split
    next => exact le_rfl
    next => exact (ih (i / 2)).trans (Nat.le_succ l)

theorem buddy_stopLevel (l i : Nat) (hpos : 0 < stopLevel k l i) :
    (k (stopLevel k l i) (buddyAt l i (stopLevel k l i))).used = true := by
  induction l generalizing i with
  | zero => exact absurd hpos (lt_irrefl 0)
  | succ l ih =>
    rw [stopLevel] at hpos ⊢
    split at hpos
    next hu =>
      rw [if_pos hu, buddyAt_self]
      exact hu
    next hu =>
      rw [if_neg hu, ← buddyAt_succ i (stopLevel_le k l (i / 2))]
      exact ih (i / 2) hpos

theorem buddy_above_stopLevel (ht : Tiling r.depth k) (l : Nat) {i : Nat} (hk : k l i ≠ .absent)
    {n : Nat} (hn : stopLevel k l i < n) (hl : n ≤ l) : k n (buddyAt l i n) = .free := by
  induction l generalizing i with
  | zero => omega
  | succ l ih =>
    have hp : k l (i / 2) = .split := ht.parent_split hk
    rw [stopLevel] at hn
    split at hn
    next => omega
    next hu =>
      rcases Nat.lt_succ_iff_lt_or_eq.mp (Nat.lt_succ_of_le hl) with hlt | rfl
      · rw [← buddyAt_succ i (by omega)]
        exact ih (by simp [hp]) hn (by omega)
      · rw [buddyAt_self]
        exact buddy_free ht hp (by simpa using hu)

theorem releaseTree_free (l : Nat) {k : Labels} {i : Nat} (ht : Tiling r.depth k)
    (hk : k l i = .live) (n j : Nat) :
    releaseTree k l i n j = .free ↔
      (n = stopLevel k l i ∧ j = i / 2 ^ (l - stopLevel k l i)) ∨
        (k n j = .free ∧ ¬ (stopLevel k l i < n ∧ n ≤ l ∧ j = buddyAt l i n)) := by
  induction l generalizing k i with
  | zero =>
    rw [releaseTree, free_set_free, stopLevel, Nat.sub_zero, pow_zero, Nat.div_one]
    exact or_congr_right (and_iff_left (by omega)).symm
  | succ l ih =>
    have hp : k l (i / 2) = .split := ht.parent_split (by simp [hk])
    rw [releaseTree, stopLevel]
    cases hu : (k (l + 1) (i ^^^ 1)).used with
    | true =>
      rw [if_pos rfl, if_pos rfl, free_set_free, Nat.sub_self, pow_zero, Nat.div_one]
      exact or_congr_right (and_iff_left (by omega)).symm
    | false =>
      obtain ⟨h0, h1⟩ := leaves_of_buddy ht hk hu
      have hm := stopLevel_le k l (i / 2)
      rw [if_neg (by decide), if_neg (by decide), ih (ht.merge hp h0 h1) (by rw [merge_apply]; simp),
        stopLevel_merge, div_two_div i hm, merge_apply]
      refine or_congr_right ?_
      split_ifs with hl hc
      · rw [hl.1, hl.2, hp]
        simp
      · obtain ⟨rfl, hj⟩ := hc
        refine iff_of_false (by simp) ?_
        rintro ⟨hf, hn⟩
        refine hn ⟨by omega, le_rfl, ?_⟩
        rw [buddyAt_self]
        refine eq_xor_one hj ?_
        rintro rfl
        rw [hk] at hf
        simp at hf
      · refine and_congr_right fun _ => not_congr ?_
        constructor
        · rintro ⟨h1, h2, h3⟩
          exact ⟨h1, by omega, h3.trans (buddyAt_succ i h2)⟩
        · rintro ⟨h1, h2, h3⟩
          rcases Nat.lt_succ_iff_lt_or_eq.mp (Nat.lt_succ_of_le h2) with hlt | rfl
          · exact ⟨h1, by omega, h3.trans (buddyAt_succ i (by omega)).symm⟩
          · rw [buddyAt_self] at h3
            exact absurd ⟨rfl, by rw [h3, xor_one_div_two]⟩ hc

theorem Represents.cleanMerge_of_heads (c : Represents r h k lists) {S : Nat → Prop}
    (hh : Heads r S h.mem lists) (l : Nat) {i : Nat} (hk : k l i ≠ .absent)
    (hs : ∀ n, stopLevel k l i < n → n ≤ l → S n) : CleanMerge r h k l i := by
  induction l generalizing i with
  | zero => trivial
  | succ l ih =>
    intro hu
    have hp : k l (i / 2) = .split := c.core.tiling.parent_split hk
    rw [stopLevel, if_neg (by simp [hu])] at hs
    have hle := stopLevel_le k l (i / 2)
    refine ⟨fun ha => ?_, ih (by simp [hp]) fun n hn hl => hs n hn (by omega)⟩
    have hmem : i ^^^ 1 ∈ lists (l + 1) :=
      (c.core.listed _ _).mpr (buddy_free c.core.tiling hp hu)
    rw [c.core.linked.freeBlocks_eq] at ha
    obtain ⟨j, js, hl⟩ := List.exists_cons_of_ne_nil (List.ne_nil_of_mem hmem)
    rw [hl] at ha
    obtain rfl : i ^^^ 1 = j := r.address_inj ha
    exact hh (l + 1) _ (hs _ (by omega) le_rfl) (by rw [hl]; simp)

theorem WellFormed.deallocateLevel (c : WellFormed r h k lists) (hk : k (l + 1) i = .live) :
    ∃ h', allocatorDeallocateLevel h (r.address (l + 1) i) (l + 1 : Nat) = some h' ∧
      WellFormed r h' (releaseTree k (l + 1) i) (releaseLists k lists (l + 1) i) ∧
      SameOutside (Spare r lists (l + 1) i) h.mem h'.mem := by
  obtain ⟨h', hd, hrep, hout, hheads⟩ := c.represents.deallocateLevel hk
    (c.represents.cleanMerge_of_heads c.heads (l + 1) (by simp [hk]) fun _ _ _ => trivial)
  exact ⟨h', hd, ⟨hrep, (hheads _ c.heads).mono fun n _ => .inl trivial⟩, hout⟩

end merge

section boot

theorem exists_boot (r : Region) (m : Memory) : ∃ w, boot r m = some w :=
  ⟨_, by rw [boot, r.allocatorInit_eq, Option.map_some]⟩

theorem levelOf_smallRegion : smallRegion.levelOf 32 = 2 := by
  rw [Region.levelOf, show Nat.clog 2 32 = 5 from Nat.clog_pow 2 5 (by omega)]
  rfl

variable {r : Region} {h : Heap} {k : Labels} {lists : Nat → List Nat}

theorem wellFormed_boot {m : Memory} {w : World} (hz : ZeroFilled r m) (hb : boot r m = some w) :
    WellFormed r w.heap rootTree rootLists := by
  have ht : Tracks r r.size w rootTree rootLists := tracks_boot hz hb
  refine ⟨ht.represents, fun l i _ hi => ?_⟩
  rw [boot, r.allocatorInit_eq, Option.map_some, Option.some.injEq] at hb
  subst hb
  cases l with
  | zero =>
    obtain rfl : 0 = i := by simpa [rootLists] using hi
    have hsz := r.sixteen_le_blockSize 0
    rw [r.blockSize_zero] at hsz
    have hword : loadWord (r.initialMemory m) (r.address 0 0) = 0#64 := by
      refine loadWord_initial hz ?_ ?_ <;> rw [Blocks.address] <;> omega
    change (loadWord (r.initialMemory m) (r.address 0 0)).toNat = 0
    rw [hword]
    rfl
  | succ l => simp [rootLists] at hi

theorem Served.wellFormed {level s i : Nat} {h' : Heap} (c : WellFormed r h k lists)
    (hs : Served r h k lists level h' s i []) :
    WellFormed r h' (divideDown (set k s i .live) s i (level - s))
      (pushDown (Function.update lists s []) s i (level - s)) := by
  refine ⟨hs.represents, fun n j _ hj => ?_⟩
  by_cases hn : n ≠ s ∨ s = level
  · exact hs.heads _ c.heads n j ⟨trivial, hn⟩ hj
  · obtain rfl : n = s := not_not.mp (not_or.mp hn).1
    rw [pushDown_above _ _ le_rfl, Function.update_self] at hj
    simp at hj

theorem served_boot {m : Memory} {w : World} {n : Nat} (hz : ZeroFilled r m)
    (hb : boot r m = some w) (hn : r.leafSize < 2 * n) (hsize : n ≤ r.size) :
    ∃ h', allocatorAllocate w.heap n = some (r.base, h') ∧
      WellFormed r h' (divideDown (set rootTree 0 0 .live) 0 0 (r.levelOf n))
        (pushDown (Function.update rootLists 0 []) 0 0 (r.levelOf n)) ∧
      divideDown (set rootTree 0 0 .live) 0 0 (r.levelOf n) (r.levelOf n) 0 = .live ∧
      r.address (r.levelOf n) 0 = r.base := by
  have c := wellFormed_boot hz hb
  have haddr : r.address (r.levelOf n) 0 = r.base := by rw [Blocks.address]; omega
  obtain ⟨hnil, -⟩ | ⟨s, i, rest, h', ha, hs⟩ := c.represents.allocate hn hsize
  · exact absurd (hnil 0 (Nat.zero_le _)) (by simp [rootLists])
  · have hhead := hs.head
    rw [rootLists] at hhead
    split at hhead
    next h0 =>
      simp only [List.cons.injEq, List.nil_eq] at hhead
      obtain ⟨rfl, rfl⟩ := hhead
      subst h0
      rw [Nat.zero_mul, haddr] at ha
      have hlive := hs.live_iff c.represents (r.levelOf_le hn) (r.levelOf n) 0
      exact ⟨h', ha, hs.wellFormed c, hlive.mpr (.inl ⟨rfl, (Nat.zero_mul _).symm⟩), haddr⟩
    next => simp at hhead

end boot

section step
variable {r : Region} {h : Heap} {k : Labels} {lists : Nat → List Nat} {l i : Nat}

theorem deallocate_level_step (c : WellFormed r h k lists) (hl : 1 ≤ l) (hk : k l i = .live) :
    ∃ h' k' lists', allocatorDeallocateLevel h (r.address l i) l = some h' ∧
      WellFormed r h' k' lists' ∧ h'.alloc.freeSize = h.alloc.freeSize + r.blockSize l ∧
      (∀ n j, k' n j = .live ↔ k n j = .live ∧ ¬ (n = l ∧ j = i)) ∧
      SameOutside (Spare r lists l i) h.mem h'.mem ∧
      ∃ m ≤ l, (∀ n, m < n → n ≤ l → k n (buddyAt l i n) = .free) ∧
        (0 < m → k m (buddyAt l i m) ≠ .free) ∧
        ∀ n j, k' n j = .free ↔ (n = m ∧ j = i / 2 ^ (l - m)) ∨
          (k n j = .free ∧ ¬ (m < n ∧ n ≤ l ∧ j = buddyAt l i n)) := by
  obtain ⟨l, rfl⟩ : ∃ n, l = n + 1 := ⟨l - 1, by omega⟩
  have ht := c.represents.core.tiling
  obtain ⟨h', hd, hw, hout⟩ := c.deallocateLevel hk
  refine ⟨h', _, _, hd, hw, ?_, live_releaseTree (l + 1) ht hk, hout, stopLevel k (l + 1) i,
    stopLevel_le k _ i, fun n hn hn' => buddy_above_stopLevel ht (l + 1) (by simp [hk]) hn hn',
    fun hpos hf => ?_, releaseTree_free (l + 1) ht hk⟩
  · rw [hw.represents.freeSize, c.represents.freeSize]
    exact freeTotal_releaseLists (l + 1) ht c.represents.core.listed
      c.represents.core.linked.nodup hk
  · have hu := buddy_stopLevel (l + 1) i hpos
    rw [hf] at hu
    simp [Kind.used] at hu

theorem deallocate_level_step_smallRegion :
    ∃ h h', ((boot smallRegion zeroMemory).bind fun w => allocatorAllocate w.heap 32) =
        some (4096, h) ∧
      allocatorDeallocateLevel h 4096 2 = some h' ∧ h'.alloc.freeSize = h.alloc.freeSize + 32 := by
  obtain ⟨w, hw⟩ := exists_boot smallRegion zeroMemory
  obtain ⟨h, ha, c, hk, haddr⟩ := served_boot (n := 32)
    (zeroFilled_zeroMemory smallRegion) hw (by decide) (by decide)
  rw [levelOf_smallRegion] at hk haddr
  obtain ⟨h', k', lists', hd, -, hfs, -⟩ := deallocate_level_step c (by omega) hk
  rw [haddr] at hd
  exact ⟨h, h', by rw [hw]; exact ha, hd, hfs⟩

end step

end Lasagne.Buddy
