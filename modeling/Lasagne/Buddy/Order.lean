import Mathlib
import Lasagne.Buddy.Coalesce
import Lasagne.Buddy.Determined

namespace Lasagne.Buddy
open ByteMemory CInt SplitTree Bitmap PartialRun

section order
variable {r : Region} {h : Heap} {k : Labels} {lists : Nat → List Nat} {l i m j : Nat}

theorem live_address_inj (ht : Tiling r.depth k) (hk : k l i = .live) (hk' : k m j = .live)
    (ha : r.address l i = r.address m j) : l = m ∧ i = j := by
  refine r.inBlock_unique ht (x := r.address l i) (by rw [hk]; rfl) (by rw [hk']; rfl)
    (r.header_inBlock le_rfl (by omega)) (r.header_inBlock ?_ ?_) <;> omega

theorem level_pos_of_two (ht : Tiling r.depth k) (hk : k l i = .live) (hk' : k m j = .live)
    (hne : r.address l i ≠ r.address m j) : 1 ≤ l := by
  by_contra hl
  obtain rfl : l = 0 := by omega
  obtain rfl := (ht.root i).mp (by simp [hk])
  rcases Nat.eq_zero_or_pos m with rfl | hm
  · obtain rfl := (ht.root j).mp (by simp [hk'])
    exact hne rfl
  · have hs := ht.ancestor_split (l := 0) (n := m) (i := j) (by rw [Nat.zero_add, hk']; simp) hm
    have hj : j / 2 ^ m = 0 := (ht.root _).mp (by simp [hs])
    rw [hj, hk] at hs
    simp at hs

theorem WellFormed.deallocate (c : WellFormed r h k lists) (hl : 1 ≤ l) (hk : k l i = .live) :
    ∃ h' k' lists', allocatorDeallocate h (r.address l i) = some h' ∧
      WellFormed r h' k' lists' ∧
      ∀ m j, k' m j = .live ↔ k m j = .live ∧ r.address m j ≠ r.address l i := by
  obtain ⟨l, rfl⟩ : ∃ n, l = n + 1 := ⟨l - 1, by omega⟩
  have ht := c.represents.core.tiling
  obtain ⟨h', hd, hw, -⟩ := c.deallocateLevel hk
  rw [← c.represents.core.deallocate_eq hk] at hd
  refine ⟨h', _, _, hd, hw, fun m j => ?_⟩
  rw [live_releaseTree (l + 1) ht hk]
  refine and_congr_right fun hm => not_congr ⟨?_, live_address_inj ht hm hk⟩
  rintro ⟨rfl, rfl⟩
  rfl

theorem WellFormed.deallocate_all (ps : List Nat) {h : Heap} {k : Labels}
    {lists : Nat → List Nat} (c : WellFormed r h k lists) (hnd : ps.Nodup)
    (hlive : ∀ p ∈ ps, ∃ l i, 1 ≤ l ∧ k l i = .live ∧ p = r.address l i) :
    ∃ h' k' lists', run allocatorDeallocate h ps = some h' ∧ WellFormed r h' k' lists' ∧
      ∀ m j, k' m j = .live ↔ k m j = .live ∧ r.address m j ∉ ps := by
  induction ps generalizing h k lists with
  | nil => exact ⟨h, k, lists, rfl, c, fun m j => by simp⟩
  | cons p ps ih =>
    obtain ⟨hp, hrest⟩ := List.nodup_cons.mp hnd
    obtain ⟨l, i, hl, hk, rfl⟩ := hlive p (by simp)
    obtain ⟨h₁, k₁, lists₁, hd, c₁, hk₁⟩ := c.deallocate hl hk
    obtain ⟨h₂, k₂, lists₂, hr, c₂, hk₂⟩ := ih c₁ hrest fun q hq => by
      obtain ⟨m, j, hm, hkm, rfl⟩ := hlive q (List.mem_cons_of_mem _ hq)
      refine ⟨m, j, hm, (hk₁ m j).mpr ⟨hkm, ?_⟩, rfl⟩
      intro hc
      exact hp (hc ▸ hq)
    refine ⟨h₂, k₂, lists₂, ?_, c₂, fun m j => ?_⟩
    · exact run_cons.mpr ⟨h₁, hd, hr⟩
    · rw [hk₂, hk₁, List.mem_cons, not_or, and_assoc]

theorem order_of_frees (c : WellFormed r h k lists) (ps qs : List Nat) (hlen : 2 ≤ ps.length)
    (hnd : ps.Nodup) (hlive : ∀ p ∈ ps, ∃ l i, k l i = .live ∧ p = r.address l i)
    (hperm : ps.Perm qs) :
    ∃ h₁ h₂ lists₁ lists₂, run allocatorDeallocate h ps = some h₁ ∧
      run allocatorDeallocate h qs = some h₂ ∧ SameBits r h₁.mem h₂.mem ∧
      h₁.alloc.freeSize = h₂.alloc.freeSize ∧ h₁.alloc.freeCount = h₂.alloc.freeCount ∧
      Lists r h₁ lists₁ ∧ Lists r h₂ lists₂ ∧ ∀ l, (lists₁ l).Perm (lists₂ l) := by
  have ht := c.represents.core.tiling
  have hpos (p : Nat) (hp : p ∈ ps) : ∃ l i, 1 ≤ l ∧ k l i = .live ∧ p = r.address l i := by
    obtain ⟨l, i, hk, rfl⟩ := hlive p hp
    obtain ⟨q, hq, hne⟩ : ∃ q ∈ ps, q ≠ r.address l i := by
      by_contra hc
      have hsub : ps ⊆ [r.address l i] := fun q hq =>
        List.mem_singleton.mpr (not_not.mp fun hne => hc ⟨q, hq, hne⟩)
      have := (hnd.subperm hsub).length_le
      rw [List.length_singleton] at this
      omega
    obtain ⟨m, j, hk', rfl⟩ := hlive q hq
    exact ⟨l, i, level_pos_of_two ht hk hk' hne.symm, hk, rfl⟩
  obtain ⟨h₁, k₁, lists₁, hr₁, c₁, hk₁⟩ := c.deallocate_all ps hnd hpos
  obtain ⟨h₂, k₂, lists₂, hr₂, c₂, hk₂⟩ := c.deallocate_all qs (hperm.nodup_iff.mp hnd)
    fun p hp => hpos p (hperm.mem_iff.mpr hp)
  have heq : k₁ = k₂ := by
    refine eq_of_live c₁.represents.core.tiling c₂.represents.core.tiling
      c₁.represents.core.coalesced c₂.represents.core.coalesced fun l i => ?_
    rw [hk₁, hk₂, hperm.mem_iff]
  subst heq
  have hp := c₁.represents.perm c₂.represents
  refine ⟨h₁, h₂, lists₁, lists₂, hr₁, hr₂,
    c₁.represents.core.bits.same c₂.represents.core.bits, ?_, ?_, c₁.represents.core.linked,
    c₂.represents.core.linked, hp⟩
  · rw [c₁.represents.freeSize, c₂.represents.freeSize, freeTotal_perm hp]
  · funext l
    rw [c₁.represents.core.linked.count, c₂.represents.core.linked.count, (hp l).length_eq]

theorem order_of_frees_smallRegion :
    ∃ h h₁ h₂, run allocatorDeallocate h [4096, 4128] = some h₁ ∧
      run allocatorDeallocate h [4128, 4096] = some h₂ ∧ SameBits smallRegion h₁.mem h₂.mem := by
  obtain ⟨w, hw⟩ := exists_boot smallRegion zeroMemory
  obtain ⟨h₀, -, c, hk, -⟩ := served_boot (n := 32) (zeroFilled_zeroMemory smallRegion) hw
    (by decide) (by decide)
  have hlist : pushDown (Function.update rootLists 0 []) 0 0 2 2 = [1] := by decide
  rw [levelOf_smallRegion] at c hk
  obtain ⟨hnil, -⟩ | ⟨s, i, rest, h, -, hs⟩ := c.represents.allocate (n := 32) (by decide) (by decide)
  · rw [levelOf_smallRegion] at hnil
    exact absurd (hnil 2 le_rfl) (by rw [hlist]; simp)
  rw [levelOf_smallRegion] at hs
  obtain rfl : s = 2 := by
    by_contra hne
    have hle := hs.level_le
    have := hs.deepest 2 (by omega) le_rfl
    rw [hlist] at this
    simp at this
  have hhead := hs.head
  rw [hlist] at hhead
  simp only [List.cons.injEq, List.nil_eq] at hhead
  obtain ⟨rfl, rfl⟩ := hhead
  have hlive := hs.live_iff c.represents (by decide)
  have hboth : ∀ p ∈ [4096, 4128], ∃ l i,
      divideDown (set (divideDown (set rootTree 0 0 .live) 0 0 2) 2 1 .live) 2 1 (2 - 2) l i = .live ∧
        p = smallRegion.address l i := by
    intro p hp
    rcases List.mem_cons.mp hp with rfl | hp
    · exact ⟨2, 0, (hlive 2 0).mpr (.inr hk), rfl⟩
    · obtain rfl := List.mem_singleton.mp hp
      exact ⟨2, 1, (hlive 2 1).mpr (.inl ⟨rfl, rfl⟩), rfl⟩
  obtain ⟨h₁, h₂, -, -, hr₁, hr₂, hsame, -⟩ := order_of_frees (hs.wellFormed c) [4096, 4128]
    [4128, 4096] le_rfl (by decide) hboth (List.Perm.swap _ _ _)
  exact ⟨h, h₁, h₂, hr₁, hr₂, hsame⟩

end order

end Lasagne.Buddy
