import Mathlib
import Lasagne.Buddy.Coalesce
import Lasagne.Buddy.Determined

namespace Lasagne.Buddy
open ByteMemory CInt SplitTree Bitmap

section divided
variable {r : Region} {k : Labels} {lists : Nat → List Nat} {l i : Nat}

theorem two_mul_xor_one (i : Nat) : 2 * i ^^^ 1 = 2 * i + 1 := by
  have := xor_one_cases (2 * i)
  omega

theorem merge_divide (ht : Tiling r.depth k) (hk : k l i = .live) :
    merge (divide k l i) l i = k := by
  funext m j
  rw [merge_apply]
  split_ifs with h1 h2
  · rw [h1.1, h1.2, hk]
  · rw [h2.1, ht.children_absent (by rw [h2.2, hk]; simp)]
  · rw [divide_apply, if_neg h1, if_neg (by omega), if_neg (by omega)]

theorem right_half_unused (k : Labels) (l i : Nat) :
    (divide k l i (l + 1) (2 * i ^^^ 1)).used = false := by
  rw [two_mul_xor_one, divide_apply, if_neg (by omega), if_neg (by omega), if_pos ⟨rfl, rfl⟩]
  rfl

theorem releaseTree_divide (ht : Tiling r.depth k) (hk : k l i = .live) :
    releaseTree (divide k l i) (l + 1) (2 * i) = releaseTree k l i := by
  rw [releaseTree, right_half_unused, if_neg (by decide), show 2 * i / 2 = i by omega,
    merge_divide ht hk]

theorem releaseLists_divide (ht : Tiling r.depth k) (hk : k l i = .live) :
    releaseLists (divide k l i) (Function.update lists (l + 1) ((2 * i + 1) :: lists (l + 1)))
      (l + 1) (2 * i) = releaseLists k lists l i := by
  rw [releaseLists, right_half_unused, if_neg (by decide), show 2 * i / 2 = i by omega,
    merge_divide ht hk, two_mul_xor_one, Function.update_self, List.erase_cons_head,
    Function.update_idem, Function.update_eq_self]

theorem stopLevel_divide : stopLevel (divide k l i) (l + 1) (2 * i) = stopLevel k l i := by
  rw [stopLevel, right_half_unused, if_neg (by decide), show 2 * i / 2 = i by omega]
  refine stopLevel_congr l i fun m j hm hj => ?_
  rw [divide_apply, if_neg hj, if_neg (by omega), if_neg (by omega)]

theorem release_divideDown (n : Nat) {k : Labels} (lists : Nat → List Nat) {l i : Nat}
    (ht : Tiling r.depth k) (hk : k l i = .live) (hd : l + n ≤ r.depth) :
    releaseTree (divideDown k l i n) (l + n) (i * 2 ^ n) = releaseTree k l i ∧
      releaseLists (divideDown k l i n) (pushDown lists l i n) (l + n) (i * 2 ^ n) =
        releaseLists k lists l i ∧
      stopLevel (divideDown k l i n) (l + n) (i * 2 ^ n) = stopLevel k l i := by
  induction n generalizing k lists l i with
  | zero =>
    rw [pow_zero, Nat.mul_one]
    exact ⟨rfl, rfl, rfl⟩
  | succ n ih =>
    have ht' := ht.divide hk (show l < r.depth by omega)
    obtain ⟨h1, h2, h3⟩ := ih
      (Function.update lists (l + 1) ((2 * i + 1) :: lists (l + 1))) ht'
      (show divide k l i (l + 1) (2 * i) = .live by simp [divide_apply]) (by omega)
    rw [show l + (n + 1) = l + 1 + n by omega, show i * 2 ^ (n + 1) = 2 * i * 2 ^ n by
      rw [pow_succ]; ring]
    refine ⟨?_, ?_, ?_⟩
    · rw [divideDown, h1, releaseTree_divide ht hk]
    · rw [divideDown, pushDown, h2, releaseLists_divide ht hk]
    · rw [divideDown, h3, stopLevel_divide]

end divided

section undo
variable {r : Region} {h h₁ : Heap} {k : Labels} {lists : Nat → List Nat} {l i n p : Nat}
  {rest : List Nat}

theorem set_free_set_live (hk : k l i = .free) : set (set k l i .live) l i .free = k := by
  funext m j
  by_cases hm : m = l ∧ j = i
  · obtain ⟨rfl, rfl⟩ := hm
    rw [set_same, hk]
  · rw [set_other _ _ hm, set_other _ _ hm]

theorem buddy_used (ht : Tiling r.depth k) (hc : Coalesced k) (hk : k (l + 1) i = .free) :
    (set k (l + 1) i .live (l + 1) (i ^^^ 1)).used = true := by
  have hne := xor_one_ne i
  have hp : k l (i / 2) = .split := ht.parent_split (by simp [hk])
  have hpres : k (l + 1) (i ^^^ 1) ≠ .absent := by
    rw [ht.child, xor_one_div_two]
    exact hp
  have hfree := hc.buddy (xor_one_div_two i).symm hne.symm hk
  rw [set_other _ _ fun hc => hne hc.2]
  cases hb : k (l + 1) (i ^^^ 1) <;> simp_all [Kind.used]

theorem release_source (ht : Tiling r.depth k) (hc : Coalesced k) (hk : k l i = .free)
    (hl : lists l = i :: rest) :
    releaseTree (set k l i .live) l i = k ∧
      releaseLists (set k l i .live) (Function.update lists l rest) l i = lists ∧
      stopLevel (set k l i .live) l i = l := by
  have hlists : Function.update (Function.update lists l rest) l (i :: rest) = lists := by
    rw [Function.update_idem, ← hl, Function.update_eq_self]
  cases l with
  | zero =>
    rw [releaseTree, releaseLists, stopLevel, Function.update_self, set_free_set_live hk, hlists]
    exact ⟨rfl, rfl, rfl⟩
  | succ l =>
    have hu := buddy_used ht hc hk
    rw [releaseTree, releaseLists, stopLevel, if_pos hu, if_pos hu, if_pos hu,
      Function.update_self, set_free_set_live hk, hlists]
    exact ⟨rfl, rfl, rfl⟩

theorem free_undoes_allocate (c : WellFormed r h k lists) (hn : r.leafSize < 2 * n)
    (hsize : n ≤ r.size) (ha : allocatorAllocate h n = some (p, h₁)) (hp : p ≠ allocatorEmpty)
    (hl : allocationLevel h₁ p ≠ some 0) :
    ∃ h₂, allocatorDeallocate h₁ p = some h₂ ∧ WellFormed r h₂ k lists ∧ h₂.alloc = h.alloc ∧
      SameBits r h₂.mem h.mem := by
  have cr := c.represents
  have hlev := r.levelOf_le hn
  obtain ⟨-, hnone⟩ | ⟨s, i, rest, h', ha', hs⟩ := cr.allocate hn hsize
  · exact absurd (hnone p h₁ ha) hp
  rw [ha, Option.some.injEq, Prod.mk.injEq] at ha'
  obtain ⟨rfl, rfl⟩ := ha'
  have hfree := hs.source_free cr
  have hle := hs.level_le
  have hlive := (hs.live_iff cr hlev _ _).mpr (.inl ⟨rfl, rfl⟩)
  have ht := cr.core.tiling.set_leaf (v := .live) (show (k s i).isLeaf by rw [hfree]; rfl) rfl
  obtain ⟨h1, h2, h3⟩ := release_divideDown (r.levelOf n - s)
    (Function.update lists s rest) ht (set_same k s i .live) (hs.level_bound hlev)
  obtain ⟨g1, g2, g3⟩ := release_source cr.core.tiling cr.core.coalesced hfree hs.head
  rw [show s + (r.levelOf n - s) = r.levelOf n by omega] at h1 h2 h3
  rw [hs.represents.core.allocationLevel hlive] at hl
  rw [hs.represents.core.deallocate_eq hlive]
  -- the stale prev link is on level s, where the merging stops
  have hheads := hs.heads _ c.heads
  have hclean := hs.represents.cleanMerge_of_heads hheads (r.levelOf n)
    (show _ ≠ Kind.absent by rw [hlive]; simp) fun m hm _ =>
      ⟨trivial, .inl (by rw [h3, g3] at hm; omega)⟩
  obtain ⟨level, hlevel⟩ : ∃ m, r.levelOf n = m + 1 :=
    Nat.exists_eq_succ_of_ne_zero fun hz => hl (by rw [hz])
  rw [hlevel] at hlive hclean hheads h1 h2 h3 hs ⊢
  obtain ⟨h₂, hd, hrep, -, hheads'⟩ := hs.represents.deallocateLevel hlive hclean
  rw [h1, g1, h2, g2] at hrep
  have hheads' := hheads' _ hheads
  rw [h2, g2, h3, g3] at hheads'
  refine ⟨h₂, hd, ⟨hrep, hheads'.mono fun m _ => ?_⟩, hrep.alloc_eq cr,
    hrep.core.bits.same cr.core.bits⟩
  rcases eq_or_ne m s with hm | hm
  · exact .inr hm
  · exact .inl ⟨trivial, .inl hm⟩

theorem free_undoes_allocate_smallRegion :
    ∃ h h₁ h₂, (boot smallRegion zeroMemory).map World.heap = some h ∧
      allocatorAllocate h 32 = some (4096, h₁) ∧ allocatorDeallocate h₁ 4096 = some h₂ ∧
      h₂.alloc = h.alloc := by
  obtain ⟨w, hw⟩ := exists_boot smallRegion zeroMemory
  have hz := zeroFilled_zeroMemory smallRegion
  obtain ⟨h₁, ha, c, hk, haddr⟩ := served_boot (n := 32) hz hw (by decide) (by decide)
  rw [levelOf_smallRegion] at hk haddr
  have hal := c.represents.core.allocationLevel hk
  rw [haddr] at hal
  obtain ⟨h₂, hd, -, halloc, -⟩ := free_undoes_allocate (wellFormed_boot hz hw) (by decide)
    (by decide) ha (by decide) (by rw [hal]; simp)
  exact ⟨w.heap, h₁, h₂, by rw [hw]; rfl, ha, hd, halloc⟩

end undo

end Lasagne.Buddy
