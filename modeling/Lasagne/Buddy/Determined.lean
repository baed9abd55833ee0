import Mathlib
import Lasagne.Buddy.Invariant

namespace Lasagne.Buddy
open ByteMemory CInt SplitTree Bitmap

structure SameBits (r : Region) (m m' : Memory) : Prop where
  split : ∀ n < 2 ^ r.depth - 1, bitAt m r.splitBitmap n = bitAt m' r.splitBitmap n
  allocation : ∀ n < 2 ^ r.depth - 1, bitAt m r.bitmaps n = bitAt m' r.bitmaps n

section determined
variable {r : Region} {h h' : Heap} {k k' : Labels} {lists lists' : Nat → List Nat}

theorem exists_node {d n : Nat} (h : n < 2 ^ d - 1) :
    ∃ l i, l < d ∧ i < 2 ^ l ∧ node l i = n := by
  have hle := Nat.log2_self_le (show n + 1 ≠ 0 by omega)
  have hlt := Nat.lt_log2_self (n := n + 1)
  rw [pow_succ] at hlt
  refine ⟨(n + 1).log2, n + 1 - 2 ^ (n + 1).log2, ?_, by omega, by rw [node]; omega⟩
  exact (Nat.log2_lt (by omega)).mpr (by omega)

theorem Bits.same {m m' : Memory} {sp al : Nat → Nat → Bool} (hb : Bits r m sp al)
    (hb' : Bits r m' sp al) : SameBits r m m' := by
  constructor
  · intro n hn
    obtain ⟨l, i, hl, hi, rfl⟩ := exists_node hn
    rw [hb.split l i hl hi, hb'.split l i hl hi]
  · intro n hn
    obtain ⟨l, i, hl, hi, rfl⟩ := exists_node hn
    rw [hb.allocation l i hl hi, hb'.allocation l i hl hi]

theorem Shape.alloc_eq {a b : Allocator} (s : Shape r.toManaged a) (t : Shape r.toManaged b)
    (hs : a.freeSize = b.freeSize) (hb : a.freeBlocks = b.freeBlocks)
    (hc : a.freeCount = b.freeCount) : a = b := by
  obtain ⟨h1, h2, h3, h4, h5, h6, h7⟩ := s
  obtain ⟨g1, g2, g3, g4, g5, g6, g7⟩ := t
  cases a
  cases b
  simp only at *
  simp [*]

theorem Represents.alloc_eq (c : Represents r h k lists) (c' : Represents r h' k' lists) :
    h.alloc = h'.alloc := by
  refine c.core.shape.alloc_eq c'.core.shape (c.freeSize.trans c'.freeSize.symm) ?_ ?_
  · funext l
    rw [c.core.linked.freeBlocks_eq, c'.core.linked.freeBlocks_eq]
  · funext l
    rw [c.core.linked.count, c'.core.linked.count]

theorem Represents.perm (c : Represents r h k lists) (c' : Represents r h' k lists') (l : Nat) :
    (lists l).Perm (lists' l) := by
  refine (List.perm_ext_iff_of_nodup (c.core.linked.nodup l) (c'.core.linked.nodup l)).mpr
    fun i => ?_
  rw [c.core.listed, c'.core.listed]

theorem freeTotal_perm (hp : ∀ l, (lists l).Perm (lists' l)) :
    freeTotal r lists = freeTotal r lists' :=
  Finset.sum_congr rfl fun l _ => by rw [(hp l).length_eq]

end determined

end Lasagne.Buddy
