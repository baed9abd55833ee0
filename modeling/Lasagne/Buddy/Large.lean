import Mathlib
import Lasagne.Buddy.Coalesce
import Lasagne.Buddy.Refusal

namespace Lasagne.Buddy
open CInt SplitTree Bitmap

-- the length of a block that is handed out is the one the allocator then knows it by
structure LongEnough (h : Heap) (n : Nat) : Prop where
  rounded : (Math.ceilToPowerOfTwo n).isSome
  served : ∀ block h', allocatorAllocate h n = some (block, h') → block ≠ allocatorEmpty →
    ∃ length, allocatorAllocationSize h' block = some length ∧ n ≤ length
  refused : h.alloc.freeSize < n → allocatorAllocate h n = some (allocatorEmpty, h)

section large
variable {h : Heap} {n b : Nat}

theorem allocate_refused {size : Nat} (hs : Math.ceilToPowerOfTwo n = some size)
    (hlt : h.alloc.freeSize < size) : allocatorAllocate h n = some (allocatorEmpty, h) := by
  rw [allocatorAllocate, hs]
  exact if_pos hlt

theorem levelFromSize_pow (hsize : h.alloc.size = 2 ^ b) (hb : b < 63) {k : Nat} (hk : k < 64) :
    levelFromSize h.alloc (2 ^ k) = some ((b : Int) - k) := by
  rw [levelFromSize, hsize, Math.log2_two_pow (by omega), Math.log2_two_pow hk]
  rfl

theorem served_level {block : Nat} {h' : Heap} (hsize : h.alloc.size = 2 ^ b) (hb : b < 63)
    (hn : 0 < n) (hle : n ≤ 2 ^ 30) (ha : allocatorAllocate h n = some (block, h'))
    (hne : block ≠ allocatorEmpty) :
    Nat.clog 2 n ≤ b ∧ ∃ h₁, obtainBlock h (b - Nat.clog 2 n) = some (block, h₁) := by
  have hround := Math.ceilToPowerOfTwo_eq hn hle
  have hclog : Nat.clog 2 n ≤ 30 := (Nat.clog_le_iff_le_pow (by omega)).mpr hle
  obtain ⟨size, hs, ⟨-, hc, -⟩ | ⟨-, level, index, h₁, h₂, hlevel, hindex, ho, -, -⟩⟩ :=
    allocate_cases ha
  · exact absurd hc hne
  · obtain rfl := Option.some.inj (hround.symm.trans hs)
    obtain rfl := Option.some.inj ((levelFromSize_pow hsize hb (by omega)).symm.trans hlevel)
    rw [levelIndex] at hindex
    split at hindex
    next hrange =>
      obtain rfl := Option.some.inj hindex
      rw [show ((b : Int) - Nat.clog 2 n).toNat = b - Nat.clog 2 n by omega] at ho
      exact ⟨by omega, h₁, ho⟩
    next => exact absurd hindex (by simp)

theorem served_fits {block : Nat} {h' : Heap} (hsize : h.alloc.size = 2 ^ b) (hb : b < 63)
    (hfree : h.alloc.freeSize < 2 ^ 63) (hn : 0 < n)
    (ha : allocatorAllocate h n = some (block, h')) (hne : block ≠ allocatorEmpty) :
    n ≤ h.alloc.size := by
  by_cases hle : n ≤ 2 ^ 30
  · obtain ⟨hclog, -⟩ := served_level hsize hb hn hle ha hne
    rw [hsize]
    exact (Nat.clog_le_iff_le_pow (by omega)).mp hclog
  · by_cases hneg : n ≤ 2 ^ 31
    · rw [allocate_refused (Math.ceilToPowerOfTwo_negative (by omega) hneg) (by omega)] at ha
      exact absurd (congrArg Prod.fst (Option.some.inj ha)).symm hne
    · rw [allocatorAllocate, Math.ceilToPowerOfTwo_undefined (by omega)] at ha
      exact absurd ha (by simp)

section length
variable {r : Region} {k : Labels} {lists : Nat → List Nat} {block : Nat} {h' : Heap}

theorem WellFormed.size_eq (c : WellFormed r h k lists) :
    h.alloc.size = 2 ^ (r.leafBits + r.depth) :=
  c.represents.core.shape.size.trans r.size_eq

end length

end large

end Lasagne.Buddy
