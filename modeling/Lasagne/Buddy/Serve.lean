import Mathlib
import Lasagne.Buddy.Coalesce

namespace Lasagne.Buddy
open ByteMemory CInt SplitTree Bitmap

section serve
variable {r : Region} {h : Heap} {k : Labels} {lists : Nat → List Nat} {n : Nat}

theorem blockSize_le_iff (r : Region) {l m : Nat} (hl : l ≤ r.depth) (hm : m ≤ r.depth) :
    r.blockSize m ≤ r.blockSize l ↔ l ≤ m := by
  have hd := r.size_le
  rw [r.blockSize_eq hl, r.blockSize_eq hm, Nat.pow_le_pow_iff_right (by omega)]
  omega

theorem Represents.fits_iff (c : Represents r h k lists) (hn : r.leafSize < 2 * n) :
    (∃ l i, k l i = .free ∧ r.blockSize (r.levelOf n) ≤ r.blockSize l) ↔
      ∃ m ≤ r.levelOf n, lists m ≠ [] := by
  constructor
  · rintro ⟨l, i, hk, hle⟩
    have hl := c.core.tiling.level_le (show k l i ≠ .absent by simp [hk])
    refine ⟨l, (blockSize_le_iff r hl (r.levelOf_le hn)).mp hle, ?_⟩
    exact List.ne_nil_of_mem ((c.core.listed l i).mpr hk)
  · rintro ⟨m, hm, hne⟩
    obtain ⟨i, rest, hl⟩ := List.exists_cons_of_ne_nil hne
    have hmem : i ∈ lists m := by rw [hl]; simp
    have hdepth := (c.core.linked.bound m i hmem).1
    refine ⟨m, i, (c.core.listed m i).mp hmem, ?_⟩
    exact (blockSize_le_iff r hdepth (r.levelOf_le hn)).mpr hm

theorem Served.freeSize_eq {level s i : Nat} {h' : Heap} {rest : List Nat}
    (hs : Served r h k lists level h' s i rest) (c : Represents r h k lists)
    (hlev : level ≤ r.depth) : h'.alloc.freeSize + r.blockSize level = h.alloc.freeSize := by
  have hle := hs.level_le
  have h1 := freeTotal_pushDown r (level - s) (Function.update lists s rest) (i := i)
    (hs.level_bound hlev)
  have h2 := freeTotal_update r lists (show s ≤ r.depth by omega) rest
  rw [hs.head, List.length_cons, Nat.add_mul, Nat.one_mul] at h2
  rw [show s + (level - s) = level by omega] at h1
  rw [hs.represents.freeSize, c.freeSize]
  omega

theorem allocate_step (c : Represents r h k lists) (hn : r.leafSize < 2 * n) (hsize : n ≤ r.size) :
    ∃ size level, Math.ceilToPowerOfTwo n = some size ∧ r.blockSize level = size ∧
      ((∃ p h', allocatorAllocate h n = some (p, h') ∧ p ≠ allocatorEmpty) ↔
        ∃ l i, k l i = .free ∧ size ≤ r.blockSize l) ∧
      ∀ p h', allocatorAllocate h n = some (p, h') → p ≠ allocatorEmpty →
        ∃ s i j k' lists', s ≤ level ∧ k s i = .free ∧
          (∀ m, s < m → m ≤ level → ∀ j, k m j ≠ .free) ∧
          j = i * 2 ^ (level - s) ∧ p = r.address level j ∧ p = r.address s i ∧
          Represents r h' k' lists' ∧ h'.alloc.freeSize + size = h.alloc.freeSize ∧
          (∀ m j', k' m j' = .live ↔ (m = level ∧ j' = j) ∨ k m j' = .live) ∧
          (∀ m j', k' m j' = .free ↔ (s < m ∧ m ≤ level ∧ j' = i * 2 ^ (m - s) + 1) ∨
            (k m j' = .free ∧ ¬ (m = s ∧ j' = i))) ∧
          SameOutside (fun x => r.InBitmaps x ∨ FreeBytes r lists x) h.mem h'.mem := by
  have hlev := r.levelOf_le hn
  have hsz := r.blockSize_levelOf hn hsize
  refine ⟨2 ^ Nat.clog 2 n, r.levelOf n,
    Math.ceilToPowerOfTwo_eq (by omega) (hsize.trans r.size_le_pow), hsz, ?_, ?_⟩
  · rw [← hsz, c.fits_iff hn]
    constructor
    · rintro ⟨p, h', ha, hp⟩
      obtain ⟨-, hnone⟩ | ⟨s, i, rest, h1, -, hs⟩ := c.allocate hn hsize
      · exact absurd (hnone p h' ha) hp
      · exact ⟨s, hs.level_le, by simp [hs.head]⟩
    · rintro ⟨m, hm, hne⟩
      obtain ⟨hnil, -⟩ | ⟨s, i, rest, h1, ha, -⟩ := c.allocate hn hsize
      · exact absurd (hnil m hm) hne
      · exact ⟨_, h1, ha, (r.address_pos _ _).ne'⟩
  · intro p h' ha hp
    obtain ⟨-, hnone⟩ | ⟨s, i, rest, h1, ha', hs⟩ := c.allocate hn hsize
    · exact absurd (hnone p h' ha) hp
    rw [ha, Option.some.injEq, Prod.mk.injEq] at ha'
    obtain ⟨rfl, rfl⟩ := ha'
    have hle := hs.level_le
    refine ⟨s, i, _, _, _, hle, hs.source_free c, fun m hm hm' j hj => ?_, rfl, rfl, ?_,
      hs.represents, ?_, hs.live_iff c hlev, hs.free_iff c hlev, hs.outside⟩
    · have hmem := (c.core.listed m j).mpr hj
      rw [hs.deepest m hm hm'] at hmem
      simp at hmem
    · rw [r.address_down i (hs.level_bound hlev), show s + (r.levelOf n - s) = r.levelOf n by omega]
    · rw [← hsz]
      exact hs.freeSize_eq c hlev

theorem allocate_step_smallRegion :
    ∃ h, (boot smallRegion zeroMemory).map World.heap = some h ∧
      ∃ p h', allocatorAllocate h 20 = some (p, h') ∧ p ≠ allocatorEmpty := by
  obtain ⟨w, hw⟩ := exists_boot smallRegion zeroMemory
  obtain ⟨size, level, hsize, -, hiff, -⟩ := allocate_step (n := 20)
    (wellFormed_boot (zeroFilled_zeroMemory smallRegion) hw).represents (by decide) (by decide)
  obtain rfl : 32 = size := Option.some.inj ((show Math.ceilToPowerOfTwo 20 = some 32 by
    decide +kernel).symm.trans hsize)
  exact ⟨w.heap, by rw [hw]; rfl, hiff.mpr ⟨0, 0, rfl, by decide⟩⟩

end serve

end Lasagne.Buddy
