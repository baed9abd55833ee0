import Mathlib
import Lasagne.Buddy.Initial

namespace Lasagne.Buddy
open ByteMemory CInt Bitmap PartialRun

-- the caller leaves allocator_bitmaps_size bytes for the bitmaps
structure Bitmapped extends Arena where
  depth_pos : 1 ≤ depth
  bitmaps_fit : bitmaps + allocatorBitmapsSize (2 ^ (leafBits + depth)) (2 ^ leafBits) ≤ 2 ^ 64

def bitmapBytes (a : Allocator) : Nat := toSize (a.bitmapEntries.tdiv 8 + 1)

def InEntries (a : Allocator) (bit : Option Int) : Prop :=
  ∃ n : Nat, bit = some (n : Int) ∧ (n : Int) < a.bitmapEntries

structure NodeBits (y : Blocks) (a : Allocator) : Prop where
  containing : ∀ l n i, l < y.depth → l + n ≤ y.depth → i < 2 ^ (l + n) →
    InEntries a (splitBitIndex a (y.address (l + n) i) l) ∧
      splitBitIndex a (y.address (l + n) i) l = splitBitIndex a (y.address l (i / 2 ^ n)) l
  allocation : ∀ l i, l < y.depth → i < 2 ^ (l + 1) →
    InEntries a (allocationBitIndex a (y.address (l + 1) i) (l + 1))
  distinct : ∀ l i m j, l ≤ y.depth → i < 2 ^ l → m ≤ y.depth → j < 2 ^ m →
    (splitBitIndex a (y.address l i) l = splitBitIndex a (y.address m j) m ↔ l = m ∧ i = j)
  buddy : ∀ l i, l < y.depth → i < 2 ^ (l + 1) → ∃ j, j < 2 ^ (l + 1) ∧ j ≠ i ∧ j / 2 = i / 2 ∧
    calculateBuddyAddress a (y.address (l + 1) i) (l + 1) = some (y.address (l + 1) j) ∧
    calculateBuddyAddress a (y.address (l + 1) j) (l + 1) = some (y.address (l + 1) i)
  parent : ∀ l i, l < y.depth → i < 2 ^ (l + 1) →
    allocationBitIndex a (y.address (l + 1) i) (l + 1) = splitBitIndex a (y.address l (i / 2)) l
  inside : ∀ l i, l ≤ y.depth → i < 2 ^ l →
    y.base ≤ y.address l i ∧ y.address l i + y.blockSize l ≤ y.base + y.size

structure BitmapLayout (y : Bitmapped) (a : Allocator) : Prop where
  first : a.allocationBitmap = if empty y.bitmaps then y.base else y.bitmaps
  apart : a.allocationBitmap + bitmapBytes a ≤ a.splitBitmap
  fits : a.splitBitmap + bitmapBytes a ≤
    a.allocationBitmap + allocatorBitmapsSize y.size y.leafSize
  bytes : ∀ n : Nat, (n : Int) < a.bitmapEntries → n / 8 < bitmapBytes a ∧
    byteOf a.allocationBitmap n = a.allocationBitmap + n / 8 ∧
    byteOf a.splitBitmap n = a.splitBitmap + n / 8
  bits : ∀ n k : Nat, (n : Int) < a.bitmapEntries → (k : Int) < a.bitmapEntries →
    byteOf a.allocationBitmap n = byteOf a.allocationBitmap k ∨
      byteOf a.splitBitmap n = byteOf a.splitBitmap k →
    maskOf n = maskOf k → n = k

namespace Shape
variable {y : Arena} {a : Allocator} (s : Shape y.toManaged a)
include s

theorem nodeBits : NodeBits y.toBlocks a := by
  have hd := y.depth_le
  have hentry {l i : Nat} (hl : l < y.depth) (hi : i < 2 ^ l) :
      InEntries a (some (node l i : Int)) := by
    have hlt := node_lt hl hi
    exact ⟨node l i, rfl, by rw [s.bitmapEntries]; omega⟩
  have hdiv {l n i : Nat} (hi : i < 2 ^ (l + n)) : i / 2 ^ n < 2 ^ l := by
    rw [Nat.div_lt_iff_lt_mul (Nat.two_pow_pos n), ← pow_add]
    exact hi
  constructor
  · intro l n i hl hn hi
    rw [s.spans.splitBitIndex_address hn (by omega) hi, s.splitBitIndex_block hl.le (hdiv hi)]
    exact ⟨hentry hl (hdiv hi), rfl⟩
  · intro l i hl hi
    rw [show (l : Int) + 1 = ((l + 1 : Nat) : Int) by omega, s.spans.allocationBitIndex hl hi]
    rw [← pow_one 2]
    exact hentry hl (hdiv hi)
  · intro l i m j hl hi hm hj
    rw [s.splitBitIndex_block hl hi, s.splitBitIndex_block hm hj]
    constructor
    · intro h
      have hnode : node l i = node m j := by simpa using h
      exact node_inj hi hj hnode
    · rintro ⟨rfl, rfl⟩
      rfl
  · intro l i hl hi
    have hj := xor_one_lt hi
    have hback := s.calculateBuddyAddress hl hj
    rw [Nat.xor_xor_cancel_right] at hback
    have hcases := xor_one_cases i
    exact ⟨i ^^^ 1, hj, by omega, xor_one_div_two i, s.calculateBuddyAddress hl hi, hback⟩
  · intro l i hl hi
    rw [show (l : Int) + 1 = ((l + 1 : Nat) : Int) by omega, s.spans.allocationBitIndex hl hi,
      s.splitBitIndex_block hl.le (by rw [pow_succ] at hi; omega)]
  · intro l i hl hi
    have hend := y.block_end_le hl hi
    rw [Blocks.address]
    omega

end Shape

namespace Bitmapped
variable (y : Bitmapped)

theorem bitmapSize_le : 2 * y.bitmapSize ≤ 2 ^ y.depth := by
  have hpow : 2 ^ y.depth = 2 ^ (y.depth - 1) * 2 := by
    have := y.depth_pos
    rw [← pow_succ]
    congr 1
    omega
  have hpos : 0 < 2 ^ (y.depth - 1) := Nat.two_pow_pos _
  rw [Blocks.bitmapSize]
  omega

theorem first_fits : y.first + 2 * y.bitmapSize ≤ 18446744073709551616 := by
  have hle := y.bitmapSize_le
  have hlim := y.base_add_size_le
  have hgiven : y.bitmaps + allocatorBitmapsSize y.size y.leafSize ≤ 18446744073709551616 := by
    rw [y.size_eq, y.leaf_eq]
    exact y.bitmaps_fit
  rw [y.allocatorBitmapsSize_eq y.depth_le] at hgiven
  have hsize : 2 ^ y.depth ≤ y.size := Nat.le_mul_of_pos_left _ y.leaf_pos
  rw [Managed.first]
  split <;> omega

theorem layout {a : Allocator} (s : Shape y.toManaged a) : BitmapLayout y a := by
  have hfit := y.first_fits
  have hle := y.bitmapSize_le
  have hentries := s.bitmapEntries
  have hbytes : bitmapBytes a = y.bitmapSize := by
    rw [bitmapBytes, hentries, y.bitmapSize_entries y.depth_le]
  have hallocation := s.allocationBitmap
  have hsplit : a.splitBitmap = y.first + y.bitmapSize := s.splitBitmap
  have hbyte (n : Nat) (hn : (n : Int) < a.bitmapEntries) : n / 8 < bitmapBytes a ∧
      byteOf a.allocationBitmap n = a.allocationBitmap + n / 8 ∧
      byteOf a.splitBitmap n = a.splitBitmap + n / 8 := by
    have hlt : n / 8 < y.bitmapSize := by
      rw [hentries] at hn
      rw [Blocks.bitmapSize]
      omega
    rw [hbytes, hallocation, hsplit]
    exact ⟨hlt, byteOf_ofNat (by omega), byteOf_ofNat (by omega)⟩
  refine ⟨hallocation, ?_, ?_, hbyte, fun n k hn hk hsame hmask => ?_⟩
  · rw [hallocation, hsplit, hbytes]
  · rw [hallocation, hsplit, hbytes, y.allocatorBitmapsSize_eq y.depth_le]
    omega
  · obtain ⟨-, hn1, hn2⟩ := hbyte n hn
    obtain ⟨-, hk1, hk2⟩ := hbyte k hk
    have hmod := maskOf_inj hmask
    omega

end Bitmapped

theorem node_bits_of_run (y : Bitmapped) (m : Memory) :
    ∃ h₀, allocatorInit m y.base y.size y.leafSize y.bitmaps = some h₀ ∧
      ∀ cs h, run call h₀ cs = some h → NodeBits y.toBlocks h.alloc ∧ BitmapLayout y h.alloc := by
  refine ⟨_, y.allocatorInit_eq y.depth_le y.first_fits m, fun cs h hrun => ?_⟩
  have s : Shape y.toManaged h.alloc := y.shape_initialAllocator.congr (fixed_of_calls hrun)
  exact ⟨s.nodeBits, y.layout s⟩

def byteRegion : Bitmapped where
  base := 4096
  leafSize := 1
  leafBits := 0
  depth := 4
  leaf_pos := by decide
  leaf_eq := by decide
  depth_le := by decide
  bits_lt := by decide
  base_fits := by decide
  bitmaps := allocatorEmpty
  depth_pos := by decide
  bitmaps_fit := by decide

theorem node_bits_byteRegion :
    ∃ h, allocatorInit (fun _ => 0#8) byteRegion.base byteRegion.size byteRegion.leafSize
        byteRegion.bitmaps = some h ∧
      NodeBits byteRegion.toBlocks h.alloc ∧ BitmapLayout byteRegion h.alloc := by
  obtain ⟨h, hinit, hall⟩ := node_bits_of_run byteRegion fun _ => 0#8
  exact ⟨h, hinit, hall [] h rfl⟩

end Lasagne.Buddy
